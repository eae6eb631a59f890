import Relata.Bytes
/-!
# Digests

The digest of a byte sequence is the 32 bytes that the BLAKE3 hash function gives it. The input is cut
into chunks of 1024 bytes, each chunk is compressed block by block, and the chunks are joined in a
binary tree whose left subtrees are complete.
-/

namespace Relata.Digest

/-- The eight words that one compression hands to the next. -/
abbrev Chain := Vector UInt32 8

/-- Sixteen words: a block of the input, or the state of a compression. -/
abbrev Block := Vector UInt32 16

/-- The chain that a chunk starts from. -/
def start : Chain :=
  #v[0x6A09E667, 0xBB67AE85, 0x3C6EF372, 0xA54FF53A, 0x510E527F, 0x9B05688C, 0x1F83D9AB, 0x5BE0CD19]

/-- Where the words of a block go between two rounds. -/
def shuffle (m : Block) : Block :=
  #v[m[2], m[6], m[3], m[10], m[7], m[0], m[4], m[13], m[1], m[11], m[12], m[5], m[9], m[14], m[15],
    m[8]]

/-- A word with its bits moved to the right, those that fall out coming in on the left. -/
def rotate (w n : UInt32) : UInt32 := (w >>> n) ||| (w <<< (32 - n))

/-- The state with four of its words mixed with each other and with two words of the block. -/
def mix (s : Block) (a b c d : Fin 16) (x y : UInt32) : Block :=
  let a₁ := s[a] + s[b] + x
  let d₁ := rotate (s[d] ^^^ a₁) 16
  let c₁ := s[c] + d₁
  let b₁ := rotate (s[b] ^^^ c₁) 12
  let a₂ := a₁ + b₁ + y
  let d₂ := rotate (d₁ ^^^ a₂) 8
  let c₂ := c₁ + d₂
  let b₂ := rotate (b₁ ^^^ c₂) 7
  (((s.set a a₂).set b b₂).set c c₂).set d d₂

/-- One round: the columns of the state, then its diagonals. -/
def round (s m : Block) : Block :=
  let s := mix s 0 4 8 12 m[0] m[1]
  let s := mix s 1 5 9 13 m[2] m[3]
  let s := mix s 2 6 10 14 m[4] m[5]
  let s := mix s 3 7 11 15 m[6] m[7]
  let s := mix s 0 5 10 15 m[8] m[9]
  let s := mix s 1 6 11 12 m[10] m[11]
  let s := mix s 2 7 8 13 m[12] m[13]
  mix s 3 4 9 14 m[14] m[15]

/-- The state after a number of rounds, the block being shuffled between them. -/
def rounds : Nat → Block → Block → Block
  | 0, s, _ => s
  | n + 1, s, m => rounds n (round s m) (shuffle m)

/-- What a compression marks its block as. -/
structure Marks where
  chunkStart : Bool := false
  chunkEnd : Bool := false
  parent : Bool := false
  root : Bool := false

/-- The marks as one word. -/
def Marks.word (m : Marks) : UInt32 :=
  (if m.chunkStart then 1 else 0) + (if m.chunkEnd then 2 else 0) + (if m.parent then 4 else 0)
    + (if m.root then 8 else 0)

/-- One compression still to be made: a chain, a block, the number of the chunk, how many bytes of the
block are input, and the marks. -/
structure Step where
  chain : Chain
  block : Block
  chunk : UInt64
  length : UInt32
  marks : Marks

/-- The chain that a compression gives. -/
def Step.chainOut (step : Step) : Chain :=
  let h := step.chain
  let s := rounds 7 #v[h[0], h[1], h[2], h[3], h[4], h[5], h[6], h[7], start[0], start[1], start[2],
    start[3], step.chunk.toUInt32, (step.chunk >>> 32).toUInt32, step.length, step.marks.word] step.block
  Vector.ofFn fun (i : Fin 8) => s[i.val] ^^^ s[i.val + 8]

/-- The words of at most 64 bytes, filled up with zeros. -/
def blockOf (bytes : Bytes) : Block :=
  let padded := (bytes ++ List.replicate (64 - bytes.length) 0).toArray
  Vector.ofFn fun (i : Fin 16) =>
    let byte (j : Nat) : UInt32 := (padded[4 * i.val + j]?.getD 0).toUInt32
    byte 0 ||| (byte 1 <<< 8) ||| (byte 2 <<< 16) ||| (byte 3 <<< 24)

/-- The last compression of a chunk, after the blocks before it. -/
def chunkStep (chunk : UInt64) (chain : Chain) (first : Bool) (bytes : Bytes) : Step :=
  if bytes.length ≤ 64 then
    ⟨chain, blockOf bytes, chunk, bytes.length.toUInt32, { chunkStart := first, chunkEnd := true }⟩
  else
    chunkStep chunk (Step.chainOut ⟨chain, blockOf (bytes.take 64), chunk, 64, { chunkStart := first }⟩)
      false (bytes.drop 64)
termination_by bytes.length
decreasing_by simp only [List.length_drop]; omega

/-- The number of bytes in the left subtree over more than one chunk: the greatest power of two chunks
that leaves something for the right one. -/
def leftLength (n : Nat) : Nat := 1024 * Nat.pow 2 ((n - 1) / 1024).log2

theorem leftLength_lt {n : Nat} (h : 1024 < n) : leftLength n < n := by
  rw [leftLength, Nat.pow_eq]
  have hk : (n - 1) / 1024 ≠ 0 := by omega
  have := Nat.log2_self_le hk
  omega

theorem leftLength_pos (n : Nat) : 0 < leftLength n := by
  rw [leftLength, Nat.pow_eq]
  have := Nat.two_pow_pos ((n - 1) / 1024).log2
  omega

/-- The last compression of the tree over some bytes, the first of whose chunks has the given
number. -/
def treeStep (chunk : UInt64) (bytes : Bytes) : Step :=
  if bytes.length ≤ 1024 then chunkStep chunk start true bytes
  else
    let n := leftLength bytes.length
    let left := (treeStep chunk (bytes.take n)).chainOut
    let right := (treeStep (chunk + (n / 1024).toUInt64) (bytes.drop n)).chainOut
    ⟨start, left ++ right, 0, 64, { parent := true }⟩
termination_by bytes.length
decreasing_by
  · have := leftLength_lt (n := bytes.length) (by omega)
    simp only [List.length_take]; omega
  · have := leftLength_pos bytes.length
    simp only [List.length_drop]; omega

/-- The bytes of a chain. -/
def bytesOf (chain : Chain) : Bytes := chain.toList.flatMap fun w => Bytes.littleEndian 4 w.toNat

end Digest

def Bytes.digest (bytes : Bytes) : Bytes :=
  let step := Digest.treeStep 0 bytes
  Digest.bytesOf (Digest.Step.chainOut { step with marks := { step.marks with root := true } })

end Relata
