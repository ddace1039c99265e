/-!
# BLAKE3

The 256-bit hash of a list of bytes. The text is cut into chunks of 1024
bytes, chunks into blocks of 64; chunk values are joined pairwise, level by
level, an odd one rising unchanged, which gives the same tree as giving every
left subtree the largest power of two of chunks.
-/

namespace Sequencer.Blake3

def iv : List UInt32 :=
  [0x6a09e667, 0xbb67ae85, 0x3c6ef372, 0xa54ff53a, 0x510e527f, 0x9b05688c, 0x1f83d9ab, 0x5be0cd19]

def permutation : List Nat := [2, 6, 3, 10, 7, 0, 4, 13, 1, 11, 12, 5, 9, 14, 15, 8]

def chunkStart : UInt32 := 1
def chunkEnd : UInt32 := 2
def parentFlag : UInt32 := 4
def rootFlag : UInt32 := 8

def rotateRight (x : UInt32) (n : UInt32) : UInt32 := (x >>> n) ||| (x <<< (32 - n))

def word (l : Array UInt32) (i : Nat) : UInt32 := l[i]?.getD 0

def mix (v : Array UInt32) (a b c d : Nat) (x y : UInt32) : Array UInt32 :=
  let va := word v a + word v b + x
  let vd := rotateRight (word v d ^^^ va) 16
  let vc := word v c + vd
  let vb := rotateRight (word v b ^^^ vc) 12
  let va := va + vb + y
  let vd := rotateRight (vd ^^^ va) 8
  let vc := vc + vd
  let vb := rotateRight (vb ^^^ vc) 7
  (((v.setIfInBounds a va).setIfInBounds b vb).setIfInBounds c vc).setIfInBounds d vd

def steps : List (Nat × Nat × Nat × Nat) :=
  [(0, 4, 8, 12), (1, 5, 9, 13), (2, 6, 10, 14), (3, 7, 11, 15),
   (0, 5, 10, 15), (1, 6, 11, 12), (2, 7, 8, 13), (3, 4, 9, 14)]

def round (v m : Array UInt32) : Array UInt32 :=
  steps.zipIdx.foldl (fun v e =>
    let ((a, b, c, d), i) := e
    mix v a b c d (word m (2 * i)) (word m (2 * i + 1))) v

def permute (m : Array UInt32) : Array UInt32 := (permutation.map (word m)).toArray

def rounds : Nat → Array UInt32 → Array UInt32 → Array UInt32
  | 0, v, _ => v
  | n + 1, v, m => rounds n (round v m) (permute m)

structure Node where
  chaining : List UInt32
  block : List UInt32
  counter : UInt64
  length : UInt32
  flags : UInt32

def Node.compress (n : Node) (extra : UInt32) : List UInt32 :=
  let start := n.chaining ++ iv.take 4 ++
    [n.counter.toUInt32, (n.counter >>> 32).toUInt32, n.length, n.flags ||| extra]
  let v := rounds 7 start.toArray n.block.toArray
  (List.range 8).map fun i => word v i ^^^ word v (i + 8)

def wordOfBytes (bytes : List UInt8) : UInt32 :=
  bytes.foldr (fun b w => w <<< 8 ||| b.toUInt32) 0

def parts {α : Type} (size : Nat) : Nat → List α → List (List α)
  | 0, _ => []
  | _, [] => []
  | fuel + 1, l => l.take size :: parts size fuel (l.drop size)

def cut {α : Type} (size : Nat) (l : List α) : List (List α) := parts size l.length l

def blockWords (bytes : List UInt8) : List UInt32 :=
  let full := bytes ++ List.replicate (64 - bytes.length) 0
  (cut 4 full).map wordOfBytes

def chunkNodeFrom (counter : UInt64) : List UInt32 → UInt32 → List (List UInt8) → Node
  | cv, start, [] => ⟨cv, blockWords [], counter, 0, start ||| chunkEnd⟩
  | cv, start, [b] => ⟨cv, blockWords b, counter, b.length.toUInt32, start ||| chunkEnd⟩
  | cv, start, b :: rest =>
    let node : Node := ⟨cv, blockWords b, counter, b.length.toUInt32, start⟩
    chunkNodeFrom counter (node.compress 0) 0 rest

def chunkNode (counter : Nat) (bytes : List UInt8) : Node :=
  chunkNodeFrom (UInt64.ofNat counter) iv chunkStart (cut 64 bytes)

def parentNode (left right : Node) : Node :=
  ⟨iv, left.compress 0 ++ right.compress 0, 0, 64, parentFlag⟩

/-- Joins neighbours; an odd last node rises unchanged. -/
def joinLevel : List Node → List Node
  | a :: b :: rest => parentNode a b :: joinLevel rest
  | l => l

def joinAll : Nat → List Node → List Node
  | 0, l => l
  | _, [n] => [n]
  | fuel + 1, l => joinAll fuel (joinLevel l)

def bytesOfWord (w : UInt32) : List UInt8 :=
  [w.toUInt8, (w >>> 8).toUInt8, (w >>> 16).toUInt8, (w >>> 24).toUInt8]

def hash (bytes : List UInt8) : List UInt8 :=
  let chunks := if bytes.isEmpty then [[]] else cut 1024 bytes
  let nodes := chunks.zipIdx.map fun e => chunkNode e.2 e.1
  match joinAll nodes.length nodes with
  | root :: _ => (root.compress rootFlag).flatMap bytesOfWord
  | [] => []

end Sequencer.Blake3
