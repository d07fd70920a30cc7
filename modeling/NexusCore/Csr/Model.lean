import NexusCore.Foundation.LinearMemory

/-!
# The CSR graph in linear memory

`CsrGraph` keeps a directed graph in one flat memory region: a packed 60-byte header, the
row pointers at offset 64, and the column indices behind them.

* `init` lays the region out and zeroes the row pointers;
* `addEdgeBatch` validates a batch, unpacks the present graph into an edge list, appends the
  batch, sorts, and rebuilds row pointers and columns in place (degree counts, prefix sums,
  scatter through a cursor array);
* `getFollowing` reads one row.

The functions run on the bytes of the region.  Indexing and slicing carry their bounds
tests, a slice made from a raw pointer must lie inside the region, and additions follow the
build profile; `usize` is 64 bits wide, so sums of a 32-bit count and a slice length are
taken as they are.  The `&'static str` errors keep their texts.
-/

namespace NexusCore.Csr

open Foundation.Machine Foundation.LinearMemory

/-- A directed edge `(src, dst)`. -/
abbrev Edge := UInt32 × UInt32

/-- `Result<_, &'static str>`. -/
abbrev Result (α : Type) := Except String α

/-- `HEADER_MAGIC`. -/
def headerMagic : UInt64 := 0xC5B04E5855530001

/-- A graph handle: the region's length.  Only `init` makes one, after its size test, so the
header always lies inside the region. -/
structure CsrGraph where
  memLen : ℕ
  header_fits : 64 ≤ memLen

/-! ### The packed header -/

def magic (m : Mem) : UInt64 := readU64 m 0
def nodeCapacity (m : Mem) : UInt32 := readU32 m 8
def edgeCapacity (m : Mem) : UInt32 := readU32 m 12
def nodeCount (m : Mem) : UInt32 := readU32 m 16
def edgeCount (m : Mem) : UInt32 := readU32 m 20
def rowPtrOffset (m : Mem) : UInt32 := readU32 m 24
def colIdxOffset (m : Mem) : UInt32 := readU32 m 28
def bumpWatermark (m : Mem) : UInt32 := readU32 m 32
def generation (m : Mem) : UInt64 := readU64 m 36

def setMagic (m : Mem) (v : UInt64) : Mem := writeU64 m 0 v
def setNodeCapacity (m : Mem) (v : UInt32) : Mem := writeU32 m 8 v
def setEdgeCapacity (m : Mem) (v : UInt32) : Mem := writeU32 m 12 v
def setNodeCount (m : Mem) (v : UInt32) : Mem := writeU32 m 16 v
def setEdgeCount (m : Mem) (v : UInt32) : Mem := writeU32 m 20 v
def setRowPtrOffset (m : Mem) (v : UInt32) : Mem := writeU32 m 24 v
def setColIdxOffset (m : Mem) (v : UInt32) : Mem := writeU32 m 28 v
def setBumpWatermark (m : Mem) (v : UInt32) : Mem := writeU32 m 32 v
def setGeneration (m : Mem) (v : UInt64) : Mem := writeU64 m 36 v
def setPad (m : Mem) (bs : List UInt8) : Mem := writeBytes m 44 bs

/-- `slice::from_raw_parts` at an offset from the region's base. -/
def CsrGraph.fromRawParts (g : CsrGraph) (offset : UInt32) (len : ℕ) : Checked Slice :=
  if offset.toNat + 4 * len ≤ g.memLen then .ok ⟨offset.toNat, len⟩ else .error .wild

def CsrGraph.rowPtrSlice (g : CsrGraph) (m : Mem) : Checked Slice :=
  g.fromRawParts (rowPtrOffset m) ((nodeCapacity m).toNat + 1)

def CsrGraph.colIdxSlice (g : CsrGraph) (m : Mem) : Checked Slice :=
  g.fromRawParts (colIdxOffset m) (edgeCount m).toNat

def CsrGraph.colIdxSliceMut (g : CsrGraph) (m : Mem) : Checked Slice :=
  g.fromRawParts (colIdxOffset m) (edgeCapacity m).toNat

/-! ### Layout -/

def requiredBytes (nodeCap edgeCap : UInt32) : ℕ :=
  64 + (nodeCap.toNat + 1) * 4 + edgeCap.toNat * 4

def init (p : Profile) (m : Mem) (memLen : ℕ) (nodeCap edgeCap : UInt32) :
    Checked (Mem × Result CsrGraph) :=
  if h : memLen < requiredBytes nodeCap edgeCap then
    .ok (m, .error "insufficient linear memory for requested capacity")
  else do
    let g : CsrGraph := ⟨memLen, by unfold requiredBytes at h; omega⟩
    let m := setMagic m headerMagic
    let m := setNodeCapacity m nodeCap
    let m := setEdgeCapacity m edgeCap
    let m := setNodeCount m 0
    let m := setEdgeCount m 0
    let m := setGeneration m 0
    let m := setRowPtrOffset m 64
    let rows ← p.add32 nodeCap 1
    let rowBytes ← p.mul32 rows 4
    let colIdx ← p.add32 64 rowBytes
    let m := setColIdxOffset m colIdx
    let colBytes ← p.mul32 edgeCap 4
    let watermark ← p.add32 (colIdxOffset m) colBytes
    let m := setBumpWatermark m watermark
    let m := setPad m (List.replicate 16 0)
    let rowPtr ← g.fromRawParts (rowPtrOffset m) rows.toNat
    .ok (rowPtr.fill 0 m, .ok g)

/-! ### Rebuilding from an edge list -/

/-- The order `sort_unstable` uses on pairs. -/
def edgeLe (a b : Edge) : Prop := a.1 < b.1 ∨ (a.1 = b.1 ∧ a.2 ≤ b.2)

instance : DecidableRel edgeLe := fun _ _ => inferInstanceAs (Decidable (_ ∨ _))

/-- `all_edges.sort_unstable()`. -/
def sortEdges (es : List Edge) : List Edge := es.insertionSort edgeLe

/-- Read the rows `src, …, src + k - 1` into `acc`. -/
def collectEdges (m : Mem) (rowPtr col : Slice) : ℕ → ℕ → List Edge → Checked (Result (List Edge))
  | 0, _, acc => .ok (.ok acc)
  | k + 1, src, acc => do
      let start ← rowPtr.get m src
      let stop ← rowPtr.get m (src + 1)
      if col.len < stop.toNat then
        .ok (.error "corrupted CSR (row_ptr out of range)")
      else do
        let row ← col.range m start.toNat stop.toNat
        collectEdges m rowPtr col k (src + 1) (acc ++ row.map fun dst => (UInt32.ofNat src, dst))

/-- The largest source id, `0` on an empty list. -/
def maxSrc (es : List Edge) : UInt32 := es.foldl (fun mx e => if mx < e.1 then e.1 else mx) 0

/-- `row_ptr[src] += 1` for every edge. -/
def countDegrees (p : Profile) (rowPtr : Slice) : Mem → List Edge → Checked Mem
  | m, [] => .ok m
  | m, e :: es => do
      let deg ← rowPtr.get m e.1.toNat
      let deg ← p.add32 deg 1
      let m ← rowPtr.set m e.1.toNat deg
      countDegrees p rowPtr m es

/-- Replace the `k` degrees from index `i` on by their running sums; `add` is the addition
that extends the sum. -/
def prefixSums (add : UInt32 → UInt32 → Checked UInt32) (rowPtr : Slice) :
    ℕ → ℕ → UInt32 → Mem → Checked (Mem × UInt32)
  | 0, _, sum, m => .ok (m, sum)
  | k + 1, i, sum, m => do
      let deg ← rowPtr.get m i
      let m ← rowPtr.set m i sum
      let sum ← add sum deg
      prefixSums add rowPtr k (i + 1) sum m

/-- Write every target at its row's cursor and advance the cursor. -/
def scatter (p : Profile) (col : Slice) :
    Mem → List UInt32 → List Edge → Checked (Mem × Result Unit)
  | m, _, [] => .ok (m, .ok ())
  | m, cursors, e :: es => do
      let pos ← index cursors e.1.toNat
      if edgeCapacity m ≤ pos then
        .ok (m, .error "corrupted CSR (scatter out of capacity)")
      else do
        let m ← col.set m pos.toNat e.2
        let next ← p.add32 pos 1
        let cursors ← store cursors e.1.toNat next
        scatter p col m cursors es

/-- The in-place part of `add_edge_batch`, from the sorted edge list on; `inserted` is the
length of the batch. -/
def rebuild (add : UInt32 → UInt32 → Checked UInt32) (p : Profile) (g : CsrGraph) (m : Mem)
    (allEdges : List Edge) (inserted : ℕ) : Checked (Mem × Result UInt32) := do
  let nodeCap := (nodeCapacity m).toNat
  let rows ← p.add32 (maxSrc allEdges) 1
  let m := setNodeCount m (min rows (nodeCapacity m))
  let rowPtr ← g.fromRawParts (rowPtrOffset m) (nodeCap + 1)
  let m := rowPtr.fill 0 m
  let m ← countDegrees p rowPtr m allEdges
  let (m, sum) ← prefixSums add rowPtr nodeCap 0 0 m
  let m ← rowPtr.set m nodeCap sum
  let col ← g.colIdxSliceMut m
  let cursors ← rowPtr.range m 0 nodeCap
  match ← scatter p col m cursors allEdges with
  | (m, .error e) => .ok (m, .error e)
  | (m, .ok ()) => do
      let m := setEdgeCount m (UInt32.ofNat allEdges.length)
      let gen ← p.add64 (generation m) 1
      .ok (setGeneration m gen, .ok (UInt32.ofNat inserted))

/-- `add_edge_batch` with the prefix-sum addition as an argument. -/
def addEdgeBatchWith (add : UInt32 → UInt32 → Checked UInt32) (p : Profile) (g : CsrGraph)
    (m : Mem) (edges : List Edge) : Checked (Mem × Result UInt32) :=
  if edges.isEmpty then .ok (m, .ok 0)
  else if magic m ≠ headerMagic then .ok (m, .error "corrupted CSR header")
  else if (edgeCapacity m).toNat < (edgeCount m).toNat + edges.length then
    .ok (m, .error "edge capacity exhausted")
  else if edges.any fun e => nodeCapacity m ≤ e.1 || nodeCapacity m ≤ e.2 then
    .ok (m, .error "node ID exceeds capacity")
  else do
    let rowPtr ← g.rowPtrSlice m
    let col ← g.colIdxSlice m
    match ← collectEdges m rowPtr col (nodeCapacity m).toNat 0 [] with
    | .error e => .ok (m, .error e)
    | .ok existing => rebuild add p g m (sortEdges (existing ++ edges)) edges.length

/-- The prefix sums of the source saturate. -/
def saturating (a b : UInt32) : Checked UInt32 := .ok (saturatingAdd32 a b)

def addEdgeBatch (p : Profile) (g : CsrGraph) (m : Mem) (edges : List Edge) :
    Checked (Mem × Result UInt32) := addEdgeBatchWith saturating p g m edges

/-! ### Reading a row -/

def getFollowing (g : CsrGraph) (m : Mem) (nodeId : UInt32) : Checked (Result (List UInt32)) :=
  if magic m ≠ headerMagic then .ok (.error "corrupted header")
  else if nodeCapacity m ≤ nodeId then .ok (.error "invalid node ID")
  else do
    let rowPtr ← g.rowPtrSlice m
    let col ← g.colIdxSlice m
    let start ← rowPtr.get m nodeId.toNat
    let stop ← rowPtr.get m (nodeId.toNat + 1)
    if start = stop then .ok (.ok [])
    else do
      let row ← col.range m start.toNat stop.toNat
      .ok (.ok row)

/-- A sequence of batches, with the answer to each. -/
def runBatches (p : Profile) (g : CsrGraph) :
    Mem → List (List Edge) → Checked (Mem × List (Result UInt32))
  | m, [] => .ok (m, [])
  | m, b :: bs => do
      let (m, r) ← addEdgeBatch p g m b
      let (m, rs) ← runBatches p g m bs
      .ok (m, r :: rs)

/-- Two edges into three nodes: the rows are `[1, 2]`, `[]`, `[0]`. -/
example :
    (do let (m, r) ← init .dev (fun _ => 7) 100 3 4
        match r with
        | .error _ => .error Fault.wild
        | .ok g => do
            let (m, _) ← addEdgeBatch .dev g m [(2, 0), (0, 2)]
            let (m, _) ← addEdgeBatch .dev g m [(0, 1)]
            getFollowing g m 0 : Checked (Result (List UInt32))) = .ok (.ok [1, 2]) := by
  decide +kernel

end NexusCore.Csr
