import Protowire.Wire.Bytes

/-!
# Digest/Blake3 — the BLAKE3 hash of a byte string

The input is cut into chunks of 1024 bytes, each chunk into blocks of 64.  The blocks of a chunk
are compressed one after the other, and the chunks are the leaves of a binary tree whose **left
subtrees are full** and hold the largest power of two of chunks that leaves something for the right.
What is compressed last — the last block of a lone chunk, or the top of the tree — is marked as the
root and gives the digest.
-/

namespace Protowire.Blake3

/-- The words a compression works on. -/
abbrev Words := Vector UInt32 16

/-- The eight words that stand for what has been compressed so far. -/
abbrev Chaining := Vector UInt32 8

/-- The chaining value of the start of every chunk, and of every parent. -/
def start : Chaining :=
  #v[0x6a09e667, 0xbb67ae85, 0x3c6ef372, 0xa54ff53a, 0x510e527f, 0x9b05688c, 0x1f83d9ab, 0x5be0cd19]

/-- The mark of the first block of a chunk. -/
def chunkStart : UInt32 := 1

/-- The mark of the last block of a chunk. -/
def chunkEnd : UInt32 := 2

/-- The mark of a block that joins two subtrees. -/
def parentMark : UInt32 := 4

/-- The mark of the last compression. -/
def rootMark : UInt32 := 8

/-- The word turned right by `n` bits. -/
def rotateRight (w n : UInt32) : UInt32 := (w >>> n) ||| (w <<< (32 - n))

/-- Mixes two words into the four words at the given places. -/
def mix (v : Words) (a b c d : Fin 16) (x y : UInt32) : Words :=
  let va := v[a] + v[b] + x
  let vd := rotateRight (v[d] ^^^ va) 16
  let vc := v[c] + vd
  let vb := rotateRight (v[b] ^^^ vc) 12
  let va := va + vb + y
  let vd := rotateRight (vd ^^^ va) 8
  let vc := vc + vd
  let vb := rotateRight (vb ^^^ vc) 7
  (((v.set a va).set b vb).set c vc).set d vd

/-- Mixes a block into the columns and then into the diagonals. -/
def mixRound (v m : Words) : Words :=
  let v := mix v 0 4 8 12 m[0] m[1]
  let v := mix v 1 5 9 13 m[2] m[3]
  let v := mix v 2 6 10 14 m[4] m[5]
  let v := mix v 3 7 11 15 m[6] m[7]
  let v := mix v 0 5 10 15 m[8] m[9]
  let v := mix v 1 6 11 12 m[10] m[11]
  let v := mix v 2 7 8 13 m[12] m[13]
  mix v 3 4 9 14 m[14] m[15]

/-- The words of a block in the order of the next round. -/
def permute (m : Words) : Words :=
  #v[m[2], m[6], m[3], m[10], m[7], m[0], m[4], m[13],
     m[1], m[11], m[12], m[5], m[9], m[14], m[15], m[8]]

/-- Mixes a block in as many rounds as given. -/
def mixRounds : (rounds : Nat) → (v m : Words) → Words
  | 0, v, _ => v
  | rounds + 1, v, m => mixRounds rounds (mixRound v m) (permute m)

/-- A compression that is still to be done. -/
structure Node where
  chaining : Chaining
  block : Words
  /-- The position of the chunk in the input. -/
  counter : UInt64
  /-- How many bytes of the block are input. -/
  blockSize : UInt32
  marks : UInt32

/-- The chaining value after a compression, which is also the digest when it is the last. -/
def Node.compress (n : Node) : Chaining :=
  let h := n.chaining
  let v : Words :=
    #v[h[0], h[1], h[2], h[3], h[4], h[5], h[6], h[7], start[0], start[1], start[2], start[3],
       n.counter.toUInt32, (n.counter >>> 32).toUInt32, n.blockSize, n.marks]
  let v := mixRounds 7 v n.block
  #v[v[0] ^^^ v[8], v[1] ^^^ v[9], v[2] ^^^ v[10], v[3] ^^^ v[11],
     v[4] ^^^ v[12], v[5] ^^^ v[13], v[6] ^^^ v[14], v[7] ^^^ v[15]]

/-- The words of a block, with zeros where it has no bytes. -/
def blockWords (block : Bytes) : Words :=
  Vector.ofFn fun i => UInt32.ofNat (Bytes.toNat ((block.drop (4 * i)).take 4))

/-- The bytes cut into pieces of the given size, the last one shorter.  `fuel` bounds their
number. -/
def pieces (size : Nat) : (fuel : Nat) → Bytes → List Bytes
  | 0, _ => []
  | fuel + 1, bytes =>
    if bytes.length ≤ size then [bytes]
    else bytes.take size :: pieces size fuel (bytes.drop size)

/-- The last compression of a chunk, from its blocks. -/
def chunkNode (counter : UInt64) (chaining : Chaining) (marks : UInt32) : List Bytes → Node
  | [] => ⟨chaining, blockWords [], counter, 0, marks ||| chunkEnd⟩
  | [block] =>
    ⟨chaining, blockWords block, counter, UInt32.ofNat block.length, marks ||| chunkEnd⟩
  | block :: rest =>
    let node : Node := ⟨chaining, blockWords block, counter, UInt32.ofNat block.length, marks⟩
    chunkNode counter node.compress 0 rest

/-- The compression that joins two subtrees. -/
def parentNode (left right : Chaining) : Node :=
  ⟨start, (left ++ right).cast rfl, 0, 64, parentMark⟩

/-- The last compression of the tree over chunks, the first of them at position `counter`.  `fuel`
bounds the height of the tree. -/
def treeNode : (fuel : Nat) → (counter : Nat) → List Bytes → Node
  | 0, counter, chunks =>
    chunkNode (UInt64.ofNat counter) start chunkStart (pieces 64 16 chunks.flatten)
  | fuel + 1, counter, chunks =>
    match chunks with
    | [] => chunkNode (UInt64.ofNat counter) start chunkStart []
    | [chunk] => chunkNode (UInt64.ofNat counter) start chunkStart (pieces 64 16 chunk)
    | chunks =>
      let half := 2 ^ (chunks.length - 1).log2
      parentNode (treeNode fuel counter (chunks.take half)).compress
        (treeNode fuel (counter + half) (chunks.drop half)).compress

/-- The digest of 32 bytes. -/
def hash (bytes : Bytes) : Bytes :=
  let chunks := pieces 1024 (bytes.length + 1) bytes
  let root := treeNode chunks.length 0 chunks
  let digest := { root with marks := root.marks ||| rootMark }.compress
  digest.toList.flatMap fun w => Bytes.ofNat 4 w.toNat

end Protowire.Blake3
