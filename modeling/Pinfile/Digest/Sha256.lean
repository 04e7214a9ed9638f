import Pinfile.Text.Blank
import Pinfile.Text.Digits

/-!
# SHA-256

The digest of a list of bytes. The message is padded to whole blocks of sixteen words, and each
block is mixed into eight chaining words by sixty-four rounds. The text of a digest is its bytes in
lowercase hexadecimal.

`checksum` is the digest of a text whose line ends are joined first, so the same text has one
checksum whether its lines end in a line feed alone or in a carriage return and a line feed.
-/

namespace Pinfile.Digest

/-! ## Words -/

/-- The word turned right by the given number of bits, at most 31. -/
def turnRight (w : UInt32) (n : UInt32) : UInt32 := (w >>> n) ||| (w <<< (32 - n))

/-- The word of four bytes, the highest first. -/
def wordOfBytes (a b c d : UInt8) : UInt32 :=
  (a.toUInt32 <<< 24) ||| (b.toUInt32 <<< 16) ||| (c.toUInt32 <<< 8) ||| d.toUInt32

/-- The four bytes of a word, the highest first. -/
def bytesOfWord (w : UInt32) : List UInt8 :=
  [(w >>> 24).toUInt8, (w >>> 16).toUInt8, (w >>> 8).toUInt8, w.toUInt8]

/-- The words of a message whose length is a multiple of four. -/
def wordsOfBytes : List UInt8 → List UInt32
  | a :: b :: c :: d :: rest => wordOfBytes a b c d :: wordsOfBytes rest
  | _ => []

/-! ## Padding -/

/-- The number of zero bytes that bring a message of the given length, one more byte and its length
in eight bytes to a multiple of 64. -/
def zerosAfter (length : Nat) : Nat := (119 - length % 64) % 64

/-- The length in bits as eight bytes, the highest first. -/
def lengthBytes (length : Nat) : List UInt8 :=
  (List.range 8).map fun i => UInt8.ofNat ((8 * length) >>> (8 * (7 - i)))

/-- The message with a one bit, zeros and its length after it. -/
def pad (message : List UInt8) : List UInt8 :=
  message ++ 0x80 :: (List.replicate (zerosAfter message.length) 0 ++ lengthBytes message.length)

/-- A padded message is made of whole blocks. -/
theorem length_pad (message : List UInt8) : (pad message).length % 64 = 0 := by
  simp only [pad, lengthBytes, zerosAfter, List.length_append, List.length_cons,
    List.length_replicate, List.length_map, List.length_range]
  omega

/-- The words in groups of sixteen. -/
def blocks : List UInt32 → List (List UInt32)
  | [] => []
  | w :: rest => (w :: rest).take 16 :: blocks (rest.drop 15)
termination_by ws => ws.length

/-! ## Rounds -/

/-- The constants of the sixty-four rounds. -/
def roundConstants : List UInt32 :=
  [0x428a2f98, 0x71374491, 0xb5c0fbcf, 0xe9b5dba5, 0x3956c25b, 0x59f111f1, 0x923f82a4, 0xab1c5ed5,
    0xd807aa98, 0x12835b01, 0x243185be, 0x550c7dc3, 0x72be5d74, 0x80deb1fe, 0x9bdc06a7, 0xc19bf174,
    0xe49b69c1, 0xefbe4786, 0x0fc19dc6, 0x240ca1cc, 0x2de92c6f, 0x4a7484aa, 0x5cb0a9dc, 0x76f988da,
    0x983e5152, 0xa831c66d, 0xb00327c8, 0xbf597fc7, 0xc6e00bf3, 0xd5a79147, 0x06ca6351, 0x14292967,
    0x27b70a85, 0x2e1b2138, 0x4d2c6dfc, 0x53380d13, 0x650a7354, 0x766a0abb, 0x81c2c92e, 0x92722c85,
    0xa2bfe8a1, 0xa81a664b, 0xc24b8b70, 0xc76c51a3, 0xd192e819, 0xd6990624, 0xf40e3585, 0x106aa070,
    0x19a4c116, 0x1e376c08, 0x2748774c, 0x34b0bcb5, 0x391c0cb3, 0x4ed8aa4a, 0x5b9cca4f, 0x682e6ff3,
    0x748f82ee, 0x78a5636f, 0x84c87814, 0x8cc70208, 0x90befffa, 0xa4506ceb, 0xbef9a3f7, 0xc67178f2]

/-- The eight chaining words. -/
structure Chain where
  a : UInt32
  b : UInt32
  c : UInt32
  d : UInt32
  e : UInt32
  f : UInt32
  g : UInt32
  h : UInt32
deriving DecidableEq, Repr

namespace Chain

/-- The chaining words before the first block. -/
def start : Chain :=
  ⟨0x6a09e667, 0xbb67ae85, 0x3c6ef372, 0xa54ff53a, 0x510e527f, 0x9b05688c, 0x1f83d9ab, 0x5be0cd19⟩

/-- The sums of the words of two chains. -/
def add (x y : Chain) : Chain :=
  ⟨x.a + y.a, x.b + y.b, x.c + y.c, x.d + y.d, x.e + y.e, x.f + y.f, x.g + y.g, x.h + y.h⟩

/-- One round, with its constant and its word of the schedule. -/
def round (x : Chain) (constant word : UInt32) : Chain :=
  let mixE := turnRight x.e 6 ^^^ turnRight x.e 11 ^^^ turnRight x.e 25
  let choice := (x.e &&& x.f) ^^^ ((~~~ x.e) &&& x.g)
  let t := x.h + mixE + choice + constant + word
  let mixA := turnRight x.a 2 ^^^ turnRight x.a 13 ^^^ turnRight x.a 22
  let majority := (x.a &&& x.b) ^^^ (x.a &&& x.c) ^^^ (x.b &&& x.c)
  ⟨t + (mixA + majority), x.a, x.b, x.c, x.d + t, x.e, x.f, x.g⟩

/-- The bytes of the chaining words. -/
def bytes (x : Chain) : List UInt8 :=
  [x.a, x.b, x.c, x.d, x.e, x.f, x.g, x.h].flatMap bytesOfWord

end Chain

/-- The next word of a schedule from the sixteen or more before it, the latest first. -/
def nextWord (latest : List UInt32) : UInt32 :=
  let near := latest.getD 1 0
  let far := latest.getD 14 0
  (turnRight near 17 ^^^ turnRight near 19 ^^^ (near >>> 10)) + latest.getD 6 0 +
    (turnRight far 7 ^^^ turnRight far 18 ^^^ (far >>> 3)) + latest.getD 15 0

/-- Adds words to a schedule, the latest first. -/
def extend (latest : List UInt32) : Nat → List UInt32
  | 0 => latest
  | n + 1 => extend (nextWord latest :: latest) n

/-- The sixty-four words of a block's schedule in order. -/
def schedule (block : List UInt32) : List UInt32 := (extend block.reverse 48).reverse

/-- Mixes a block into the chaining words. -/
def mixBlock (x : Chain) (block : List UInt32) : Chain :=
  x.add ((roundConstants.zip (schedule block)).foldl (fun y (k, w) => y.round k w) x)

/-! ## The digest -/

/-- The digest of a message. -/
def sha256 (message : List UInt8) : List UInt8 :=
  ((blocks (wordsOfBytes (pad message))).foldl mixBlock Chain.start).bytes

/-- The text of the digest of a message. -/
def sha256Hex (message : List UInt8) : String :=
  String.ofList (Text.Hex.ofBytes (sha256 message))

/-- The bytes of a text in UTF-8. -/
def utf8 (cs : List Char) : List UInt8 := (String.ofList cs).toUTF8.data.toList

/-- The checksum of a manifest's text. Carriage returns before line feeds have no part in it. -/
def checksum (text : String) : String := sha256Hex (utf8 (Text.joinLineEnds text.toList))

/-- A schedule has sixty-four words. -/
theorem length_extend (latest : List UInt32) (n : Nat) :
    (extend latest n).length = latest.length + n := by
  induction n generalizing latest with
  | zero => rfl
  | succ n ih =>
    rw [extend, ih, List.length_cons]
    omega

/-- A digest has thirty-two bytes. -/
@[simp] theorem length_sha256 (message : List UInt8) : (sha256 message).length = 32 := by
  simp [sha256, Chain.bytes, bytesOfWord]

/-- Texts that differ only in how their lines end have one checksum. -/
theorem checksum_eq_of_joinLineEnds {s t : String}
    (h : Text.joinLineEnds s.toList = Text.joinLineEnds t.toList) : checksum s = checksum t := by
  rw [checksum, h, checksum]

example : (schedule (List.replicate 16 0)).length = 64 := by decide +kernel
example : sha256Hex [] = "e3b0c44298fc1c149afbf4c8996fb92427ae41e4649b934ca495991b7852b855" := by
  decide +kernel

end Pinfile.Digest
