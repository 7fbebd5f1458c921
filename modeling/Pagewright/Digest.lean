/-!
# File digests

BLAKE3: a message is cut into chunks of 1024 bytes, the chunks are the leaves of
a binary tree whose left subtrees are as large as a power of two allows, and
every node is compressed into a chaining value of eight words. The digest is the
chaining value of the root.
-/

namespace Pagewright

namespace Digest

abbrev Words (n : Nat) := Vector UInt32 n

/-- The chaining value that every chunk and every parent starts from. -/
def initialValue : Words 8 :=
  #v[0x6A09E667, 0xBB67AE85, 0x3C6EF372, 0xA54FF53A, 0x510E527F, 0x9B05688C, 0x1F83D9AB, 0x5BE0CD19]

def chunkStart : UInt32 := 1

def chunkEnd : UInt32 := 2

def parentNode : UInt32 := 4

def rootNode : UInt32 := 8

def blockSize : Nat := 64

def chunkSize : Nat := 1024

def rotateRight (word count : UInt32) : UInt32 :=
  (word >>> count) ||| (word <<< (32 - count))

/-- Mixes two message words into four words of the state. -/
def mix (state : Words 16) (a b c d : Fin 16) (x y : UInt32) : Words 16 :=
  let wa := state[a] + state[b] + x
  let wd := rotateRight (state[d] ^^^ wa) 16
  let wc := state[c] + wd
  let wb := rotateRight (state[b] ^^^ wc) 12
  let wa := wa + wb + y
  let wd := rotateRight (wd ^^^ wa) 8
  let wc := wc + wd
  let wb := rotateRight (wb ^^^ wc) 7
  (((state.set a wa).set b wb).set c wc).set d wd

/-- One round: the columns of the state, then its diagonals. -/
def round (state message : Words 16) : Words 16 :=
  let state := mix state 0 4 8 12 message[0] message[1]
  let state := mix state 1 5 9 13 message[2] message[3]
  let state := mix state 2 6 10 14 message[4] message[5]
  let state := mix state 3 7 11 15 message[6] message[7]
  let state := mix state 0 5 10 15 message[8] message[9]
  let state := mix state 1 6 11 12 message[10] message[11]
  let state := mix state 2 7 8 13 message[12] message[13]
  mix state 3 4 9 14 message[14] message[15]

/-- The order of message words in the next round. -/
def permute (m : Words 16) : Words 16 :=
  #v[m[2], m[6], m[3], m[10], m[7], m[0], m[4], m[13], m[1], m[11], m[12], m[5], m[9], m[14], m[15],
    m[8]]

def rounds : Nat → Words 16 → Words 16 → Words 16
  | 0, state, _ => state
  | 1, state, message => round state message
  | count + 1, state, message => rounds count (round state message) (permute message)

/-- What is compressed at a node of the tree. -/
structure Node where
  value : Words 8
  block : Words 16
  counter : UInt64
  length : UInt32
  flags : UInt32

def Node.compress (node : Node) : Words 8 :=
  let h := node.value
  let v := initialValue
  let state : Words 16 :=
    #v[h[0], h[1], h[2], h[3], h[4], h[5], h[6], h[7], v[0], v[1], v[2], v[3],
      node.counter.toUInt32, (node.counter >>> 32).toUInt32, node.length, node.flags]
  let s := rounds 7 state node.block
  #v[s[0] ^^^ s[8], s[1] ^^^ s[9], s[2] ^^^ s[10], s[3] ^^^ s[11], s[4] ^^^ s[12], s[5] ^^^ s[13],
    s[6] ^^^ s[14], s[7] ^^^ s[15]]

/-- A byte of a message that goes on with zeros. -/
def byteAt (message : ByteArray) (index : Nat) : UInt32 :=
  ((message[index]?).getD 0).toUInt32

/-- Four bytes as a word, lowest byte first. -/
def wordAt (message : ByteArray) (index : Nat) : UInt32 :=
  byteAt message index ||| (byteAt message (index + 1) <<< 8)
    ||| (byteAt message (index + 2) <<< 16) ||| (byteAt message (index + 3) <<< 24)

/-- The words of the block that starts at an index and ends before `stop`. -/
def blockAt (message : ByteArray) (index stop : Nat) : Words 16 :=
  let block := message.extract index (min (index + blockSize) stop)
  Vector.ofFn fun i => wordAt block (4 * i.val)

/-- Compresses all blocks of a chunk but the last, which is returned as a node. -/
def chunkBlocks (message : ByteArray) (counter : UInt64) :
    Nat → Nat → Nat → Words 8 → UInt32 → Node
  | 0, index, stop, value, flags =>
    { value
      block := blockAt message index stop
      counter
      length := (stop - index).toUInt32
      flags := flags ||| chunkEnd }
  | more + 1, index, stop, value, flags =>
    let node : Node :=
      { value, block := blockAt message index stop, counter, length := blockSize.toUInt32, flags }
    chunkBlocks message counter more (index + blockSize) stop node.compress 0

/-- The node of the chunk with number `counter`, which lies between two indices. -/
def chunk (message : ByteArray) (counter : UInt64) (index stop : Nat) : Node :=
  chunkBlocks message counter ((stop - index - 1) / blockSize) index stop initialValue chunkStart

def parent (left right : Words 8) : Node :=
  { value := initialValue
    block := left ++ right
    counter := 0
    length := blockSize.toUInt32
    flags := parentNode }

/-- The node of the subtree over the bytes between two indices. The left part is a power of two of
chunks, so a subtree over more than one chunk is less than twice its left part, and trees over
fewer than `2 ^ levels` chunks fit. -/
def subtree (message : ByteArray) : Nat → Nat → Nat → Node
  | 0, index, stop => chunk message (index / chunkSize).toUInt64 index stop
  | levels + 1, index, stop =>
    if stop - index ≤ chunkSize then chunk message (index / chunkSize).toUInt64 index stop
    else
      let left := chunkSize * 2 ^ ((stop - index - 1) / chunkSize).log2
      parent (subtree message levels index (index + left)).compress
        (subtree message levels (index + left) stop).compress

def hexDigit (value : UInt32) : Char :=
  let value := value.toNat
  if value < 10 then Char.ofNat ('0'.toNat + value) else Char.ofNat ('a'.toNat + (value - 10))

/-- A word in hexadecimal, lowest byte first. -/
def hexWord (word : UInt32) : List Char :=
  ([0, 8, 16, 24] : List UInt32).flatMap fun shift =>
    let byte := (word >>> shift) &&& 0xFF
    [hexDigit (byte >>> 4), hexDigit (byte &&& 0xF)]

end Digest

/-- The digest of a content, in hexadecimal. -/
def digest (content : ByteArray) : String :=
  let root := Digest.subtree content 64 0 content.size
  let root := { root with flags := root.flags ||| Digest.rootNode, counter := 0 }
  String.ofList (root.compress.toList.flatMap Digest.hexWord)

end Pagewright
