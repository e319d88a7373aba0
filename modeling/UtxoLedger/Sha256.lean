import UtxoLedger.Hash

/-!
# SHA-256

The message is padded to whole blocks of sixteen 32-bit words, most significant byte first; each
block is expanded to sixty-four words and mixed into the eight words of the state. Transactions
and headers are named by the digest of the digest.
-/
namespace UtxoLedger
namespace Sha256

/-- The eight working words. -/
structure State where
  a : UInt32
  b : UInt32
  c : UInt32
  d : UInt32
  e : UInt32
  f : UInt32
  g : UInt32
  h : UInt32
  deriving DecidableEq

/-- Fractional parts of the square roots of the first eight primes. -/
def initial : State :=
  ⟨0x6a09e667, 0xbb67ae85, 0x3c6ef372, 0xa54ff53a, 0x510e527f, 0x9b05688c, 0x1f83d9ab, 0x5be0cd19⟩

/-- Fractional parts of the cube roots of the first sixty-four primes. -/
def roundConstants : List UInt32 :=
  [0x428a2f98, 0x71374491, 0xb5c0fbcf, 0xe9b5dba5, 0x3956c25b, 0x59f111f1, 0x923f82a4, 0xab1c5ed5,
   0xd807aa98, 0x12835b01, 0x243185be, 0x550c7dc3, 0x72be5d74, 0x80deb1fe, 0x9bdc06a7, 0xc19bf174,
   0xe49b69c1, 0xefbe4786, 0x0fc19dc6, 0x240ca1cc, 0x2de92c6f, 0x4a7484aa, 0x5cb0a9dc, 0x76f988da,
   0x983e5152, 0xa831c66d, 0xb00327c8, 0xbf597fc7, 0xc6e00bf3, 0xd5a79147, 0x06ca6351, 0x14292967,
   0x27b70a85, 0x2e1b2138, 0x4d2c6dfc, 0x53380d13, 0x650a7354, 0x766a0abb, 0x81c2c92e, 0x92722c85,
   0xa2bfe8a1, 0xa81a664b, 0xc24b8b70, 0xc76c51a3, 0xd192e819, 0xd6990624, 0xf40e3585, 0x106aa070,
   0x19a4c116, 0x1e376c08, 0x2748774c, 0x34b0bcb5, 0x391c0cb3, 0x4ed8aa4a, 0x5b9cca4f, 0x682e6ff3,
   0x748f82ee, 0x78a5636f, 0x84c87814, 0x8cc70208, 0x90befffa, 0xa4506ceb, 0xbef9a3f7, 0xc67178f2]

/-- Rotation by `n` places, for `0 < n < 32`. -/
def rotateRight (x n : UInt32) : UInt32 := (x >>> n) ||| (x <<< (32 - n))

/-- One round with round constant `k` and message word `w`. -/
def State.round (s : State) (k w : UInt32) : State :=
  let sum1 := rotateRight s.e 6 ^^^ rotateRight s.e 11 ^^^ rotateRight s.e 25
  let choice := (s.e &&& s.f) ^^^ (~~~s.e &&& s.g)
  let t1 := s.h + sum1 + choice + k + w
  let sum0 := rotateRight s.a 2 ^^^ rotateRight s.a 13 ^^^ rotateRight s.a 22
  let majority := (s.a &&& s.b) ^^^ (s.a &&& s.c) ^^^ (s.b &&& s.c)
  ⟨t1 + (sum0 + majority), s.a, s.b, s.c, s.d + t1, s.e, s.f, s.g⟩

def State.add (s t : State) : State :=
  ⟨s.a + t.a, s.b + t.b, s.c + t.c, s.d + t.d, s.e + t.e, s.f + t.f, s.g + t.g, s.h + t.h⟩

def State.words (s : State) : List UInt32 := [s.a, s.b, s.c, s.d, s.e, s.f, s.g, s.h]

/-- `n` further message words on top of `ws`, which is kept newest first. -/
def expand : Nat → List UInt32 → List UInt32
  | 0, ws => ws
  | n + 1, ws =>
    let x := ws.getD 1 0
    let y := ws.getD 14 0
    let s1 := rotateRight x 17 ^^^ rotateRight x 19 ^^^ (x >>> 10)
    let s0 := rotateRight y 7 ^^^ rotateRight y 18 ^^^ (y >>> 3)
    expand n ((s1 + ws.getD 6 0 + s0 + ws.getD 15 0) :: ws)

/-- The sixty-four message words of a block of sixteen. -/
def schedule (block : List UInt32) : List UInt32 := (expand 48 block.reverse).reverse

def rounds : List UInt32 → List UInt32 → State → State
  | k :: ks, w :: ws, s => rounds ks ws (s.round k w)
  | _, _, s => s

/-- Mixes one block into the state. -/
def compress (s : State) (block : List UInt32) : State :=
  s.add (rounds roundConstants (schedule block) s)

/-- Groups of four bytes as words, most significant byte first. -/
def wordsOf : Bytes → List UInt32
  | a :: b :: c :: d :: rest =>
    ((a.toUInt32 <<< 24) ||| (b.toUInt32 <<< 16) ||| (c.toUInt32 <<< 8) ||| d.toUInt32)
      :: wordsOf rest
  | _ => []

/-- One set bit, then clear bits up to the bit length in the last eight bytes of a block. -/
def pad (msg : Bytes) : Bytes :=
  let n := msg.length
  msg ++ 0x80 :: (List.replicate ((119 - n % 64) % 64) 0 ++ Bytes.bigEndian 8 (8 * n))

/-- Mixes in `n` blocks of 64 bytes. -/
def absorb : Nat → Bytes → State → State
  | 0, _, s => s
  | n + 1, bs, s => absorb n (bs.drop 64) (compress s (wordsOf (bs.take 64)))

/-- The four bytes of a word, most significant first. -/
def wordBytes (w : UInt32) : Bytes :=
  [(w >>> 24).toUInt8, (w >>> 16).toUInt8, (w >>> 8).toUInt8, w.toUInt8]

def State.digest (s : State) : Hash :=
  ⟨s.words.flatMap wordBytes, by simp [State.words, wordBytes]⟩

/-- The SHA-256 digest of a byte string. -/
def hash (msg : Bytes) : Hash :=
  let padded := pad msg
  (absorb (padded.length / 64) padded initial).digest

end Sha256

/-- The digest of the digest. -/
def doubleSha256 (msg : Bytes) : Hash := Sha256.hash (Sha256.hash msg).bytes

end UtxoLedger
