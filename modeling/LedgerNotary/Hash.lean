import LedgerNotary.Bytes

/-! The 32-bit words on which the digests compute: rotation, and blocks of sixteen words. -/

namespace LedgerNotary

/-- Rotation to the right by `k` bits, `0 < k < 32`. -/
def rotateRight (k x : UInt32) : UInt32 := (x >>> k) ||| (x <<< (32 - k))

structure Words16 where
  (w0 w1 w2 w3 w4 w5 w6 w7 w8 w9 w10 w11 w12 w13 w14 w15 : UInt32)
deriving DecidableEq, Repr

namespace Words16

def read (word : Bytes → Nat) (s : Bytes) : Words16 :=
  let w (i : Nat) := UInt32.ofNat (word ((s.drop (4 * i)).take 4))
  ⟨w 0, w 1, w 2, w 3, w 4, w 5, w 6, w 7, w 8, w 9, w 10, w 11, w 12, w 13, w 14, w 15⟩

/-- Least significant byte first; bytes missing at the end count as zero. -/
def ofBytesLE (s : Bytes) : Words16 := read Bytes.toNatLE s

def ofBytesBE (s : Bytes) : Words16 := read Bytes.toNatBE s

end Words16

/-- The first `count` pieces of `size` bytes each; the last may be shorter. -/
def Bytes.pieces (size : Nat) : Nat → Bytes → List Bytes
  | 0, _ => []
  | count + 1, s => s.take size :: pieces size count (s.drop size)

end LedgerNotary

/-! The SHA-256 hash, and the keyed hash HMAC built on it. -/

namespace LedgerNotary.Sha256

structure State where
  (a b c d e f g h : UInt32)
deriving DecidableEq, Repr

def initial : State :=
  ⟨0x6A09E667, 0xBB67AE85, 0x3C6EF372, 0xA54FF53A, 0x510E527F, 0x9B05688C, 0x1F83D9AB, 0x5BE0CD19⟩

def roundConstants : List UInt32 :=
  [0x428A2F98, 0x71374491, 0xB5C0FBCF, 0xE9B5DBA5, 0x3956C25B, 0x59F111F1, 0x923F82A4, 0xAB1C5ED5,
   0xD807AA98, 0x12835B01, 0x243185BE, 0x550C7DC3, 0x72BE5D74, 0x80DEB1FE, 0x9BDC06A7, 0xC19BF174,
   0xE49B69C1, 0xEFBE4786, 0x0FC19DC6, 0x240CA1CC, 0x2DE92C6F, 0x4A7484AA, 0x5CB0A9DC, 0x76F988DA,
   0x983E5152, 0xA831C66D, 0xB00327C8, 0xBF597FC7, 0xC6E00BF3, 0xD5A79147, 0x06CA6351, 0x14292967,
   0x27B70A85, 0x2E1B2138, 0x4D2C6DFC, 0x53380D13, 0x650A7354, 0x766A0ABB, 0x81C2C92E, 0x92722C85,
   0xA2BFE8A1, 0xA81A664B, 0xC24B8B70, 0xC76C51A3, 0xD192E819, 0xD6990624, 0xF40E3585, 0x106AA070,
   0x19A4C116, 0x1E376C08, 0x2748774C, 0x34B0BCB5, 0x391C0CB3, 0x4ED8AA4A, 0x5B9CCA4F, 0x682E6FF3,
   0x748F82EE, 0x78A5636F, 0x84C87814, 0x8CC70208, 0x90BEFFFA, 0xA4506CEB, 0xBEF9A3F7, 0xC67178F2]

/-- Drops the first word of the schedule's window and appends the next one. -/
def advance (w : Words16) : Words16 :=
  let s0 := rotateRight 7 w.w1 ^^^ rotateRight 18 w.w1 ^^^ (w.w1 >>> 3)
  let s1 := rotateRight 17 w.w14 ^^^ rotateRight 19 w.w14 ^^^ (w.w14 >>> 10)
  ⟨w.w1, w.w2, w.w3, w.w4, w.w5, w.w6, w.w7, w.w8, w.w9, w.w10, w.w11, w.w12, w.w13, w.w14, w.w15,
   w.w0 + s0 + w.w9 + s1⟩

def State.round (s : State) (k w : UInt32) : State :=
  let s1 := rotateRight 6 s.e ^^^ rotateRight 11 s.e ^^^ rotateRight 25 s.e
  let choice := (s.e &&& s.f) ^^^ ((0xFFFFFFFF ^^^ s.e) &&& s.g)
  let t1 := s.h + s1 + choice + k + w
  let s0 := rotateRight 2 s.a ^^^ rotateRight 13 s.a ^^^ rotateRight 22 s.a
  let majority := (s.a &&& s.b) ^^^ (s.a &&& s.c) ^^^ (s.b &&& s.c)
  ⟨t1 + (s0 + majority), s.a, s.b, s.c, s.d + t1, s.e, s.f, s.g⟩

def rounds : List UInt32 → State → Words16 → State
  | [], s, _ => s
  | k :: ks, s, w => rounds ks (s.round k w.w0) (advance w)

def compress (s : State) (block : Bytes) : State :=
  let t := rounds roundConstants s (.ofBytesBE block)
  ⟨s.a + t.a, s.b + t.b, s.c + t.c, s.d + t.d, s.e + t.e, s.f + t.f, s.g + t.g, s.h + t.h⟩

/-- The message, a one bit, zeros up to a whole number of blocks, and the length in bits. -/
def padded (s : Bytes) : Bytes :=
  s ++ 0x80 :: List.replicate ((119 - s.length % 64) % 64) 0 ++ Bytes.ofNatBE 8 (8 * s.length)

def State.bytes (s : State) : Bytes :=
  [s.a, s.b, s.c, s.d, s.e, s.f, s.g, s.h].flatMap fun w => Bytes.ofNatBE 4 w.toNat

@[simp] theorem State.length_bytes (s : State) : s.bytes.length = 32 := by simp [State.bytes]

def hash (s : Bytes) : Octets 32 :=
  let p := padded s
  ⟨((p.pieces 64 (p.length / 64)).foldl compress initial).bytes, State.length_bytes _⟩

def blockKey (key : Bytes) (pad : UInt8) : Bytes :=
  (key ++ List.replicate (64 - key.length) 0).map (· ^^^ pad)

/-- The keyed hash of `s`, for keys of at most one block. -/
def hmac (key s : Bytes) : Octets 32 :=
  hash (blockKey key 0x5C ++ (hash (blockKey key 0x36 ++ s)).bytes)

end LedgerNotary.Sha256

/-! The BLAKE3 hash, unkeyed, with a digest of 32 bytes.

The input is cut into chunks of 1024 bytes, each chunk into blocks of 64. A chunk's chaining value
comes from compressing its blocks in turn. Chaining values are then joined in pairs, an odd last
one moving up as it is, until the last pair gives the root. -/

namespace LedgerNotary.Blake3

/-- Four words side by side: one row of the compression state. -/
structure Row where
  (x y z w : UInt32)
deriving DecidableEq, Repr

namespace Row

def map (f : UInt32 → UInt32) (r : Row) : Row := ⟨f r.x, f r.y, f r.z, f r.w⟩

def zip (f : UInt32 → UInt32 → UInt32) (r s : Row) : Row :=
  ⟨f r.x s.x, f r.y s.y, f r.z s.z, f r.w s.w⟩

instance : Add Row := ⟨zip (· + ·)⟩
instance : XorOp Row := ⟨zip (· ^^^ ·)⟩

def rotateLanes (r : Row) : Row := ⟨r.y, r.z, r.w, r.x⟩

/-- The row as 16 bytes, each word least significant byte first. -/
def bytes (r : Row) : Bytes :=
  Bytes.ofNatLE 4 r.x.toNat ++ Bytes.ofNatLE 4 r.y.toNat ++
    Bytes.ofNatLE 4 r.z.toNat ++ Bytes.ofNatLE 4 r.w.toNat

@[simp] theorem length_bytes (r : Row) : r.bytes.length = 16 := by simp [bytes]

end Row

/-- A chaining value: the eight words handed from one compression to the next. -/
structure Chain where
  (top bottom : Row)
deriving DecidableEq, Repr

def initial : Chain :=
  ⟨⟨0x6A09E667, 0xBB67AE85, 0x3C6EF372, 0xA54FF53A⟩,
   ⟨0x510E527F, 0x9B05688C, 0x1F83D9AB, 0x5BE0CD19⟩⟩

/-- The sixteen words that a compression mixes. -/
structure State where
  (a b c d : Row)

def State.mix (s : State) (m n : Row) : State :=
  let a := s.a + s.b + m
  let d := (s.d ^^^ a).map (rotateRight 16)
  let c := s.c + d
  let b := (s.b ^^^ c).map (rotateRight 12)
  let a := a + b + n
  let d := (d ^^^ a).map (rotateRight 8)
  let c := c + d
  let b := (b ^^^ c).map (rotateRight 7)
  ⟨a, b, c, d⟩

/-- Turns the rows so that the diagonals become columns. -/
def State.slant (s : State) : State :=
  ⟨s.a, s.b.rotateLanes, s.c.rotateLanes.rotateLanes, s.d.rotateLanes.rotateLanes.rotateLanes⟩

def State.unslant (s : State) : State :=
  ⟨s.a, s.b.rotateLanes.rotateLanes.rotateLanes, s.c.rotateLanes.rotateLanes, s.d.rotateLanes⟩

def State.round (s : State) (m : Words16) : State :=
  let s := s.mix ⟨m.w0, m.w2, m.w4, m.w6⟩ ⟨m.w1, m.w3, m.w5, m.w7⟩
  (s.slant.mix ⟨m.w8, m.w10, m.w12, m.w14⟩ ⟨m.w9, m.w11, m.w13, m.w15⟩).unslant

/-- The order in which the next round takes the message words. -/
def permute (m : Words16) : Words16 :=
  ⟨m.w2, m.w6, m.w3, m.w10, m.w7, m.w0, m.w4, m.w13,
   m.w1, m.w11, m.w12, m.w5, m.w9, m.w14, m.w15, m.w8⟩

def rounds : Nat → State → Words16 → State
  | 0, s, _ => s
  | n + 1, s, m => rounds n (s.round m) (permute m)

def chunkStart : UInt32 := 1
def chunkEnd : UInt32 := 2
def parentNode : UInt32 := 4
def rootNode : UInt32 := 8

/-- Compresses one block of `length` bytes under the chunk counter and the flags given. -/
def compress (h : Chain) (block : Words16) (counter length : Nat) (flags : UInt32) : Chain :=
  let tail : Row :=
    ⟨UInt32.ofNat counter, UInt32.ofNat (counter / 4294967296), UInt32.ofNat length, flags⟩
  let s := rounds 7 ⟨h.top, h.bottom, initial.top, tail⟩ block
  ⟨s.a ^^^ s.c, s.b ^^^ s.d⟩

/-- Compresses the blocks of a chunk in turn; `last` marks the last of them. -/
def chainBlocks (counter : Nat) (last flags : UInt32) (h : Chain) : List Bytes → Chain
  | [] => h
  | [b] => compress h (.ofBytesLE b) counter b.length (flags ||| last)
  | b :: rest =>
    chainBlocks counter last 0 (compress h (.ofBytesLE b) counter b.length flags) rest

/-- How many pieces of `size` bytes hold `length` bytes; an empty input takes one. -/
def pieceCount (size length : Nat) : Nat := max 1 ((length + size - 1) / size)

def chainChunk (root : UInt32) (counter : Nat) (chunk : Bytes) : Chain :=
  chainBlocks counter (chunkEnd ||| root) chunkStart initial
    (chunk.pieces 64 (pieceCount 64 chunk.length))

def chainPair (root : UInt32) (l r : Chain) : Chain :=
  compress initial (.ofBytesLE (l.top.bytes ++ l.bottom.bytes ++ r.top.bytes ++ r.bottom.bytes))
    0 64 (parentNode ||| root)

/-- Joins neighbours; an odd last one stays. -/
def joinPairs : List Chain → List Chain
  | l :: r :: rest => chainPair 0 l r :: joinPairs rest
  | rest => rest

/-- Joins level by level down to the root, in at most as many levels as there are values. -/
def joinAll : Nat → List Chain → Chain
  | _, [l, r] => chainPair rootNode l r
  | levels + 1, chains => joinAll levels (joinPairs chains)
  | 0, _ => initial

def chain (s : Bytes) : Chain :=
  let count := pieceCount 1024 s.length
  if count = 1 then chainChunk rootNode 0 s
  else
    joinAll count ((s.pieces 1024 count).zipIdx.map fun (chunk, i) => chainChunk 0 i chunk)

def hash (s : Bytes) : Octets 32 :=
  let h := chain s
  ⟨h.top.bytes ++ h.bottom.bytes, by simp⟩

end LedgerNotary.Blake3
