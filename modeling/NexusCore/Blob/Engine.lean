import NexusCore.Foundation.ByteOrder
import NexusCore.Foundation.Machine

/-!
# The graph blob

`GraphEngine` is the parsed form of a packed graph: row pointers, column indices, one packed
document reference for each edge slot, and the arena that holds the documents.  `fromBlob`
is the reader of the query engine, `toBlob` the documented layout written out, `gen` the
generator script that produces the blobs the engine is run on.

A packed reference keeps an arena offset in its upper 44 bits and a length in its lower 20.

Sizes are natural numbers: the reader computes them in 64-bit words from two 32-bit header
words, and the largest of them stays below `2 ^ 37`.
-/

namespace NexusCore.Blob

open Foundation.Machine Foundation.ByteOrder

/-- `GraphEngine`. -/
structure GraphEngine where
  rowPtr : List UInt32
  colIdx : List UInt32
  docOffsets : List UInt64
  arena : List UInt8
  deriving DecidableEq, Repr

/-! ### Reading a blob -/

/-- The end of the fixed sections of a blob with the given header words. -/
def sectionsEnd (nNodes nnz : ℕ) : ℕ := 8 + (nNodes + 1) * 4 + nnz * 4 + nnz * 8

/-- `GraphEngine::from_blob`. -/
def fromBlob (blob : List UInt8) : Checked (Except String GraphEngine) :=
  if blob.length < 8 then .ok (.error "blob too short")
  else do
    let nNodes := (u32FromLe (← slice blob 0 4)).toNat
    let nnz := (u32FromLe (← slice blob 4 8)).toNat
    let off := 8
    let rowPtrBytes := (nNodes + 1) * 4
    let colIdxBytes := nnz * 4
    let docOffBytes := nnz * 8
    if blob.length < off + rowPtrBytes + colIdxBytes + docOffBytes then
      .ok (.error "blob truncated")
    else do
      let rowPtr ← slice blob off (off + rowPtrBytes)
      let off := off + rowPtrBytes
      let colIdx ← slice blob off (off + colIdxBytes)
      let off := off + colIdxBytes
      let docOffsets ← slice blob off (off + docOffBytes)
      let off := off + docOffBytes
      let arena ← slice blob off blob.length
      .ok (.ok
        { rowPtr := (chunksExact 4 rowPtr).map u32FromLe
          colIdx := (chunksExact 4 colIdx).map u32FromLe
          docOffsets := (chunksExact 8 docOffsets).map u64FromLe
          arena := arena })

/-! ### Writing a blob -/

/-- `GraphEngine::n_nodes`. -/
def GraphEngine.nNodes (g : GraphEngine) : UInt32 := UInt32.ofNat (g.rowPtr.length - 1)

/-- `GraphEngine::nnz`. -/
def GraphEngine.nnz (g : GraphEngine) : UInt32 := UInt32.ofNat g.colIdx.length

/-- The documented layout: the two counts, the three arrays, the arena. -/
def toBlob (g : GraphEngine) : List UInt8 :=
  u32ToLe g.nNodes ++ u32ToLe g.nnz ++ g.rowPtr.flatMap u32ToLe ++ g.colIdx.flatMap u32ToLe ++
    g.docOffsets.flatMap u64ToLe ++ g.arena

/-! ### Packed document references -/

/-- `packed >> 20`. -/
def docOffset (packed : UInt64) : ℕ := (packed >>> 20).toNat

/-- `packed & 0x000F_FFFF`. -/
def docLen (packed : UInt64) : ℕ := (packed &&& 0x000FFFFF).toNat

/-! ### The generator script -/

/-- `struct.pack` with one little-endian field of `w` bytes, an error when `v` does not fit. -/
def pack (w v : ℕ) : Option (List UInt8) := if v < 256 ^ w then some (leBytes w v) else none

/-- `struct.pack("<I", v)`. -/
def packI (v : ℕ) : Option (List UInt8) := pack 4 v

/-- `struct.pack("<Q", v)`. -/
def packQ (v : ℕ) : Option (List UInt8) := pack 8 v

/-- The loop over the nodes: row pointers and column indices. -/
def genRows (edges : ℕ → List ℕ) (nNodes : ℕ) : List ℕ × List ℕ :=
  (List.range nNodes).foldl
    (fun (rowPtr, colIdx) i =>
      let colIdx := colIdx ++ edges i
      (rowPtr ++ [colIdx.length], colIdx))
    ([0], [])

/-- The loop over the edge slots: arena and packed references. -/
def genDocs (body : ℕ → List UInt8) (nnz : ℕ) : List UInt8 × List ℕ :=
  (List.range nnz).foldl
    (fun (arena, docOffsets) i =>
      let off := arena.length
      (arena ++ body i, docOffsets ++ [(off <<< 20) ||| ((body i).length &&& 0xFFFFF)]))
    ([], [])

/-- `gen`, with the edge map and the document bodies as arguments in place of the random
choices; `none` when a number does not fit its field. -/
def gen (nNodes : ℕ) (edges : ℕ → List ℕ) (body : ℕ → List UInt8) : Option (List UInt8) := do
  let (rowPtr, colIdx) := genRows edges nNodes
  let nnz := colIdx.length
  let (arena, docOffsets) := genDocs body nnz
  let header ← packI nNodes
  let count ← packI nnz
  let rows ← rowPtr.mapM packI
  let cols ← colIdx.mapM packI
  let docs ← docOffsets.mapM packQ
  some (header ++ count ++ rows.flatten ++ cols.flatten ++ docs.flatten ++ arena)

/-- Two nodes, one edge, one document. -/
example : (do
    let blob ← gen 2 (fun i => if i = 0 then [1] else []) (fun _ => [123, 125])
    some (fromBlob blob)) = some (.ok (.ok ⟨[0, 1, 1], [1], [2], [123, 125]⟩)) := by
  decide +kernel

end NexusCore.Blob
