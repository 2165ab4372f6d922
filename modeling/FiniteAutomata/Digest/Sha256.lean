import FiniteAutomata.Bytes
import FiniteAutomata.Text.Hexadecimal

/-!
# SHA-256

The digest of a message: the message is padded to whole blocks of sixteen words, and each block is
compressed in 64 rounds into a state of eight words.
-/
namespace FiniteAutomata

/-- Thirty-two bytes that stand for a message. -/
structure Digest where
  bytes : List UInt8
  length_eq : bytes.length = 32
  deriving DecidableEq

/-- The digest of the given bytes, when there are thirty-two. -/
def Digest.ofBytes? (bs : List UInt8) : Option Digest :=
  if h : bs.length = 32 then some ⟨bs, h⟩ else none

/-- The digest in hexadecimal. -/
def Digest.text (d : Digest) : String := hexBytes d.bytes

namespace Sha256

/-- Eight words, the state of the compression. -/
structure State where
  a : UInt32
  b : UInt32
  c : UInt32
  d : UInt32
  e : UInt32
  f : UInt32
  g : UInt32
  h : UInt32

/-- The first state: the fractional parts of the square roots of the first eight primes. -/
def initial : State :=
  ⟨0x6a09e667, 0xbb67ae85, 0x3c6ef372, 0xa54ff53a,
   0x510e527f, 0x9b05688c, 0x1f83d9ab, 0x5be0cd19⟩

/-- The constants of the rounds: the fractional parts of the cube roots of the first 64 primes. -/
def constants : List UInt32 :=
  [0x428a2f98, 0x71374491, 0xb5c0fbcf, 0xe9b5dba5, 0x3956c25b, 0x59f111f1, 0x923f82a4, 0xab1c5ed5,
   0xd807aa98, 0x12835b01, 0x243185be, 0x550c7dc3, 0x72be5d74, 0x80deb1fe, 0x9bdc06a7, 0xc19bf174,
   0xe49b69c1, 0xefbe4786, 0x0fc19dc6, 0x240ca1cc, 0x2de92c6f, 0x4a7484aa, 0x5cb0a9dc, 0x76f988da,
   0x983e5152, 0xa831c66d, 0xb00327c8, 0xbf597fc7, 0xc6e00bf3, 0xd5a79147, 0x06ca6351, 0x14292967,
   0x27b70a85, 0x2e1b2138, 0x4d2c6dfc, 0x53380d13, 0x650a7354, 0x766a0abb, 0x81c2c92e, 0x92722c85,
   0xa2bfe8a1, 0xa81a664b, 0xc24b8b70, 0xc76c51a3, 0xd192e819, 0xd6990624, 0xf40e3585, 0x106aa070,
   0x19a4c116, 0x1e376c08, 0x2748774c, 0x34b0bcb5, 0x391c0cb3, 0x4ed8aa4a, 0x5b9cca4f, 0x682e6ff3,
   0x748f82ee, 0x78a5636f, 0x84c87814, 0x8cc70208, 0x90befffa, 0xa4506ceb, 0xbef9a3f7, 0xc67178f2]

/-- Rotates a word to the right. -/
def rotate (x : UInt32) (n : UInt32) : UInt32 := (x >>> n) ||| (x <<< (32 - n))

/-- The next word of the schedule, after the last sixteen. -/
def nextWord (window : List UInt32) : UInt32 :=
  match window with
  | [w0, w1, _, _, _, _, _, _, _, w9, _, _, _, _, w14, _] =>
    let s0 := rotate w1 7 ^^^ rotate w1 18 ^^^ (w1 >>> 3)
    let s1 := rotate w14 17 ^^^ rotate w14 19 ^^^ (w14 >>> 10)
    w0 + s0 + w9 + s1
  | _ => 0

/-- One round with a constant and a word of the schedule. -/
def round (s : State) (k w : UInt32) : State :=
  let s1 := rotate s.e 6 ^^^ rotate s.e 11 ^^^ rotate s.e 25
  let choice := (s.e &&& s.f) ^^^ ((~~~ s.e) &&& s.g)
  let t1 := s.h + s1 + choice + k + w
  let s0 := rotate s.a 2 ^^^ rotate s.a 13 ^^^ rotate s.a 22
  let majority := (s.a &&& s.b) ^^^ (s.a &&& s.c) ^^^ (s.b &&& s.c)
  ⟨t1 + s0 + majority, s.a, s.b, s.c, s.d + t1, s.e, s.f, s.g⟩

/-- The rounds with the given constants, from the last sixteen words of the schedule on. -/
def rounds (s : State) (window : List UInt32) : List UInt32 → State
  | [] => s
  | k :: ks => rounds (round s k (window.headD 0)) (window.tail ++ [nextWord window]) ks

/-- Adds two states word by word. -/
def State.add (s t : State) : State :=
  ⟨s.a + t.a, s.b + t.b, s.c + t.c, s.d + t.d, s.e + t.e, s.f + t.f, s.g + t.g, s.h + t.h⟩

/-- Compresses a block of sixteen words into the state. -/
def compress (s : State) (block : List UInt32) : State := s.add (rounds s block constants)

/-- The state after the whole blocks so far, with the words of the block that is not whole yet. -/
structure Progress where
  state : State
  block : List UInt32

/-- Takes a further word. -/
def absorb (p : Progress) (w : UInt32) : Progress :=
  let block := p.block ++ [w]
  if block.length = 16 then ⟨compress p.state block, []⟩ else ⟨p.state, block⟩

/-- The big-endian words of some bytes. -/
def words : List UInt8 → List UInt32
  | a :: b :: c :: d :: rest => UInt32.ofNat (ofBigEndian [a, b, c, d]) :: words rest
  | _ => []

/-- The message with a one bit, zeros and its length in bits, which fill its last block. -/
def pad (message : List UInt8) : List UInt8 :=
  message ++ 0x80 :: List.replicate ((119 - message.length % 64) % 64) 0 ++
    bigEndian 8 (8 * message.length)

/-- The words of a state. -/
def State.words (s : State) : List UInt32 := [s.a, s.b, s.c, s.d, s.e, s.f, s.g, s.h]

/-- The bytes of a state. -/
def State.bytes (s : State) : List UInt8 := s.words.flatMap fun w => bigEndian 4 w.toNat

end Sha256

/-- The SHA-256 digest of a message. -/
def sha256 (message : List UInt8) : Digest :=
  let s := ((Sha256.words (Sha256.pad message)).foldl Sha256.absorb ⟨Sha256.initial, []⟩).state
  ⟨s.bytes, by simp [Sha256.State.bytes, Sha256.State.words]⟩

end FiniteAutomata
