import ManifestLens.Text.Quoted

/-!
# MD5 digests

The version of a block of text is the MD5 digest of its UTF-8 bytes in lower-case hexadecimal.  Messages are padded
to blocks of sixty-four bytes, and each block mixes its sixteen words into four chaining words in sixty-four rounds.
-/

namespace ManifestLens.Digest

/-- The four chaining words. -/
structure Md5State where
  a : UInt32
  b : UInt32
  c : UInt32
  d : UInt32

def Md5State.initial : Md5State := ⟨0x67452301, 0xefcdab89, 0x98badcfe, 0x10325476⟩

/-- The additive constant of each round. -/
def roundConstants : Array UInt32 :=
  #[0xd76aa478, 0xe8c7b756, 0x242070db, 0xc1bdceee, 0xf57c0faf, 0x4787c62a, 0xa8304613, 0xfd469501,
    0x698098d8, 0x8b44f7af, 0xffff5bb1, 0x895cd7be, 0x6b901122, 0xfd987193, 0xa679438e, 0x49b40821,
    0xf61e2562, 0xc040b340, 0x265e5a51, 0xe9b6c7aa, 0xd62f105d, 0x02441453, 0xd8a1e681, 0xe7d3fbc8,
    0x21e1cde6, 0xc33707d6, 0xf4d50d87, 0x455a14ed, 0xa9e3e905, 0xfcefa3f8, 0x676f02d9, 0x8d2a4c8a,
    0xfffa3942, 0x8771f681, 0x6d9d6122, 0xfde5380c, 0xa4beea44, 0x4bdecfa9, 0xf6bb4b60, 0xbebfbc70,
    0x289b7ec6, 0xeaa127fa, 0xd4ef3085, 0x04881d05, 0xd9d4d039, 0xe6db99e5, 0x1fa27cf8, 0xc4ac5665,
    0xf4292244, 0x432aff97, 0xab9423a7, 0xfc93a039, 0x655b59c3, 0x8f0ccc92, 0xffeff47d, 0x85845dd1,
    0x6fa87e4f, 0xfe2ce6e0, 0xa3014314, 0x4e0811a1, 0xf7537e82, 0xbd3af235, 0x2ad7d2bb, 0xeb86d391]

/-- The rotation of each round: four amounts in turn, for each quarter of the rounds. -/
def rotations : Array UInt32 :=
  #[7, 12, 17, 22, 5, 9, 14, 20, 4, 11, 16, 23, 6, 10, 15, 21]

def rotateLeft (x s : UInt32) : UInt32 :=
  (x <<< s) ||| (x >>> (32 - s))

/-- One round on the words of a block. -/
def md5Round (words : Array UInt32) (s : Md5State) (i : Nat) : Md5State :=
  let (mix, index) :=
    if i < 16 then ((s.b &&& s.c) ||| (~~~s.b &&& s.d), i)
    else if i < 32 then ((s.d &&& s.b) ||| (~~~s.d &&& s.c), (5 * i + 1) % 16)
    else if i < 48 then (s.b ^^^ s.c ^^^ s.d, (3 * i + 5) % 16)
    else (s.c ^^^ (s.b ||| ~~~s.d), 7 * i % 16)
  let sum := mix + s.a + roundConstants.getD i 0 + words.getD index 0
  ⟨s.d, s.b + rotateLeft sum (rotations.getD (i / 16 * 4 + i % 4) 0), s.b, s.c⟩

/-- Mixes one block into the chaining words. -/
def md5Block (s : Md5State) (words : Array UInt32) : Md5State :=
  let t := (List.range 64).foldl (md5Round words) s
  ⟨s.a + t.a, s.b + t.b, s.c + t.c, s.d + t.d⟩

/-- The bytes of a number, least significant first. -/
def littleEndian : (count : Nat) → Nat → List UInt8
  | 0, _ => []
  | count + 1, n => UInt8.ofNat (n % 256) :: littleEndian count (n / 256)

/-- The message, a one bit, zeros, and the length in bits, up to a whole number of blocks. -/
def padded (message : List UInt8) : List UInt8 :=
  let zeros := (119 - message.length % 64) % 64
  message ++ [0x80] ++ List.replicate zeros 0 ++ littleEndian 8 (8 * message.length)

/-- Bytes read four at a time, least significant first. -/
def wordsOf : List UInt8 → List UInt32
  | w :: x :: y :: z :: rest =>
    (w.toUInt32 ||| (x.toUInt32 <<< 8) ||| (y.toUInt32 <<< 16) ||| (z.toUInt32 <<< 24)) :: wordsOf rest
  | _ => []

/-- Words taken sixteen at a time. -/
def blocksOf (words : List UInt32) : (fuel : Nat) → List (Array UInt32)
  | 0 => []
  | fuel + 1 => if words.isEmpty then [] else (words.take 16).toArray :: blocksOf (words.drop 16) fuel

/-- The sixteen bytes of a message's digest. -/
def md5 (message : List UInt8) : List UInt8 :=
  let words := wordsOf (padded message)
  let s := (blocksOf words words.length).foldl md5Block Md5State.initial
  [s.a, s.b, s.c, s.d].flatMap fun word => littleEndian 4 word.toNat

/-- The digest of a text in hexadecimal. -/
def md5Hex (text : String) : String :=
  String.ofList ((md5 text.toUTF8.toList).flatMap fun b => Text.hexDigits 2 b.toNat)

end ManifestLens.Digest
