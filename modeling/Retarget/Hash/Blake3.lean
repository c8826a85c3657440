import Retarget.Hash.Digest

/-!
The Blake3 hash. Input is cut into chunks of 1024 bytes and those into blocks of 64; each chunk is
folded through the compression function to a chaining value, and the chaining values are joined in a
binary tree whose left subtrees are full. Only the last compression at the root yields the digest.
-/
namespace Retarget.Blake3

abbrev Words (count : Nat) := Vector UInt32 count

def initial : Words 8 :=
  #v[0x6A09E667, 0xBB67AE85, 0x3C6EF372, 0xA54FF53A, 0x510E527F, 0x9B05688C, 0x1F83D9AB, 0x5BE0CD19]

/-- The order in which the next round takes the message words. -/
def shuffled (message : Words 16) : Words 16 :=
  #v[message[2], message[6], message[3], message[10], message[7], message[0], message[4], message[13],
     message[1], message[11], message[12], message[5], message[9], message[14], message[15], message[8]]

def rotateRight (word : UInt32) (count : UInt32) : UInt32 := (word >>> count) ||| (word <<< (32 - count))

/-- Mixes two message words into one column or diagonal of the state. -/
def mix (state : Words 16) (a b c d : Fin 16) (x y : UInt32) : Words 16 :=
  let a₁ := state[a] + state[b] + x
  let d₁ := rotateRight (state[d] ^^^ a₁) 16
  let c₁ := state[c] + d₁
  let b₁ := rotateRight (state[b] ^^^ c₁) 12
  let a₂ := a₁ + b₁ + y
  let d₂ := rotateRight (d₁ ^^^ a₂) 8
  let c₂ := c₁ + d₂
  let b₂ := rotateRight (b₁ ^^^ c₂) 7
  (((state.set a a₂).set b b₂).set c c₂).set d d₂

def round (state message : Words 16) : Words 16 :=
  let state := mix state 0 4 8 12 message[0] message[1]
  let state := mix state 1 5 9 13 message[2] message[3]
  let state := mix state 2 6 10 14 message[4] message[5]
  let state := mix state 3 7 11 15 message[6] message[7]
  let state := mix state 0 5 10 15 message[8] message[9]
  let state := mix state 1 6 11 12 message[10] message[11]
  let state := mix state 2 7 8 13 message[12] message[13]
  mix state 3 4 9 14 message[14] message[15]

def rounds : Nat → Words 16 → Words 16 → Words 16
  | 0, state, _ => state
  | count + 1, state, message => rounds count (round state message) (shuffled message)

namespace Flag

def chunkStart : UInt32 := 1
def chunkEnd : UInt32 := 2
def parent : UInt32 := 4
def root : UInt32 := 8

end Flag

/-- One application of the compression function, not yet carried out: the root is compressed with one flag more. -/
structure Node where
  chaining : Words 8
  message : Words 16
  counter : UInt64
  length : UInt32
  flags : UInt32

/-- The first half of the compressed state, all that is used of it. -/
def Node.compress (node : Node) (extra : UInt32) : Words 8 :=
  let state : Words 16 := node.chaining ++
    #v[initial[0], initial[1], initial[2], initial[3], node.counter.toUInt32, (node.counter >>> 32).toUInt32,
       node.length, node.flags ||| extra]
  let state := rounds 7 state node.message
  Vector.ofFn fun index : Fin 8 => state[index.val] ^^^ state[index.val + 8]

def wordAt (bytes : Vector UInt8 64) (index : Fin 16) : UInt32 :=
  let offset := 4 * index.val
  (bytes[offset]).toUInt32 ||| (bytes[offset + 1]).toUInt32 <<< 8 |||
    (bytes[offset + 2]).toUInt32 <<< 16 ||| (bytes[offset + 3]).toUInt32 <<< 24

/-- A block's bytes as words, lowest byte first, with zeros after the last byte. -/
def blockWords (block : Bytes) : Words 16 :=
  let padded : Array UInt8 := block.toArray
  let bytes : Vector UInt8 64 := Vector.ofFn fun index => padded.getD index.val 0
  Vector.ofFn (wordAt bytes)

/-- The first `count` pieces of `size` bytes, the last of them as long as the input allows. -/
def pieces (size : Nat) : Nat → Bytes → List Bytes
  | 0, _ => []
  | count + 1, bytes => bytes.take size :: pieces size count (bytes.drop size)

/-- The number of pieces that input is cut into. Empty input is one empty piece. -/
def pieceCount (size length : Nat) : Nat := max 1 ((length + size - 1) / size)

def cut (size : Nat) (bytes : Bytes) : List Bytes := pieces size (pieceCount size bytes.length) bytes

/-- Compresses all blocks of a chunk but the last, which is left as the chunk's node. -/
def chunkFrom (counter : UInt64) (chaining : Words 8) (flags : UInt32) : List Bytes → Node
  | [] => ⟨chaining, blockWords [], counter, 0, flags ||| Flag.chunkEnd⟩
  | [block] => ⟨chaining, blockWords block, counter, block.length.toUInt32, flags ||| Flag.chunkEnd⟩
  | block :: rest =>
    let node : Node := ⟨chaining, blockWords block, counter, block.length.toUInt32, flags⟩
    chunkFrom counter (node.compress 0) 0 rest

def chunkNode (counter : Nat) (chunk : Bytes) : Node :=
  chunkFrom counter.toUInt64 initial Flag.chunkStart (cut 64 chunk)

def parentNode (left right : Node) : Node :=
  ⟨initial, left.compress 0 ++ right.compress 0, 0, 64, Flag.parent⟩

/-- The node over at most `2 ^ height` chunks, the first of them number `counter`. The left subtree
takes the largest power of two that leaves at least one chunk to the right. -/
def treeNode : (height : Nat) → (counter : Nat) → List Bytes → Node
  | 0, counter, chunks => chunkNode counter (chunks.headD [])
  | height + 1, counter, chunks =>
    let half := 2 ^ height
    if chunks.length ≤ half then treeNode height counter chunks
    else parentNode (treeNode height counter (chunks.take half))
      (treeNode height (counter + half) (chunks.drop half))

def digestOf (words : Words 8) : Digest :=
  Vector.ofFn fun index : Fin 32 => (words.get ⟨index.val / 4, by omega⟩ >>> (8 * (index.val % 4)).toUInt32).toUInt8

def hash (bytes : Bytes) : Digest :=
  let chunks := cut 1024 bytes
  digestOf ((treeNode (chunks.length.log2 + 1) 0 chunks).compress Flag.root)

end Retarget.Blake3
