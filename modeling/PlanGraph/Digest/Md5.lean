/-! The MD5 message digest of RFC 1321. -/

set_option autoImplicit false
namespace PlanGraph.Md5

structure Words where
  a : UInt32
  b : UInt32
  c : UInt32
  d : UInt32
deriving DecidableEq, Repr

def start : Words := ⟨0x67452301, 0xefcdab89, 0x98badcfe, 0x10325476⟩

/-- The absolute sines of 1 to 64, as fractions of 2³². -/
def sines : Array UInt32 :=
  #[0xd76aa478, 0xe8c7b756, 0x242070db, 0xc1bdceee, 0xf57c0faf, 0x4787c62a, 0xa8304613, 0xfd469501,
    0x698098d8, 0x8b44f7af, 0xffff5bb1, 0x895cd7be, 0x6b901122, 0xfd987193, 0xa679438e, 0x49b40821,
    0xf61e2562, 0xc040b340, 0x265e5a51, 0xe9b6c7aa, 0xd62f105d, 0x02441453, 0xd8a1e681, 0xe7d3fbc8,
    0x21e1cde6, 0xc33707d6, 0xf4d50d87, 0x455a14ed, 0xa9e3e905, 0xfcefa3f8, 0x676f02d9, 0x8d2a4c8a,
    0xfffa3942, 0x8771f681, 0x6d9d6122, 0xfde5380c, 0xa4beea44, 0x4bdecfa9, 0xf6bb4b60, 0xbebfbc70,
    0x289b7ec6, 0xeaa127fa, 0xd4ef3085, 0x04881d05, 0xd9d4d039, 0xe6db99e5, 0x1fa27cf8, 0xc4ac5665,
    0xf4292244, 0x432aff97, 0xab9423a7, 0xfc93a039, 0x655b59c3, 0x8f0ccc92, 0xffeff47d, 0x85845dd1,
    0x6fa87e4f, 0xfe2ce6e0, 0xa3014314, 0x4e0811a1, 0xf7537e82, 0xbd3af235, 0x2ad7d2bb, 0xeb86d391]

def rotations (operation : Nat) : List UInt32 :=
  if operation < 16 then [7, 12, 17, 22]
  else if operation < 32 then [5, 9, 14, 20]
  else if operation < 48 then [4, 11, 16, 23]
  else [6, 10, 15, 21]

def rotateLeft (word amount : UInt32) : UInt32 := (word <<< amount) ||| (word >>> (32 - amount))

/-- The combination of three words in an operation, and the message word that it takes. -/
def combine (operation : Nat) (words : Words) : UInt32 × Nat :=
  if operation < 16 then ((words.b &&& words.c) ||| (~~~words.b &&& words.d), operation)
  else if operation < 32 then
    ((words.d &&& words.b) ||| (~~~words.d &&& words.c), (5 * operation + 1) % 16)
  else if operation < 48 then (words.b ^^^ words.c ^^^ words.d, (3 * operation + 5) % 16)
  else (words.c ^^^ (words.b ||| ~~~words.d), 7 * operation % 16)

def operate (block : List UInt32) (words : Words) (operation : Nat) : Words :=
  let (combined, position) := combine operation words
  let sum := words.a + combined + sines.getD operation 0 + block.getD position 0
  let rotation := (rotations operation).getD (operation % 4) 0
  ⟨words.d, words.b + rotateLeft sum rotation, words.b, words.c⟩

def absorb (words : Words) (block : List UInt32) : Words :=
  let mixed := (List.range 64).foldl (operate block) words
  ⟨words.a + mixed.a, words.b + mixed.b, words.c + mixed.c, words.d + mixed.d⟩

/-- The bytes of a number, the lowest first. -/
def littleEndian (count number : Nat) : List UInt8 :=
  (List.range count).map fun place => UInt8.ofNat (number / Nat.pow 256 place)

def pad (message : List UInt8) : List UInt8 :=
  let zeros := (119 - message.length % 64) % 64
  message ++ 0x80 :: List.replicate zeros 0 ++ littleEndian 8 (message.length * 8)

def wordsOfBytes : List UInt8 → List UInt32
  | first :: second :: third :: fourth :: rest =>
    (first.toUInt32 ||| (second.toUInt32 <<< 8) ||| (third.toUInt32 <<< 16)
      ||| (fourth.toUInt32 <<< 24)) :: wordsOfBytes rest
  | _ => []

def blocks (words : List UInt32) : List (List UInt32) :=
  (List.range (words.length / 16)).map fun index => (words.drop (16 * index)).take 16

def digest (message : List UInt8) : List UInt8 :=
  let words := (blocks (wordsOfBytes (pad message))).foldl absorb start
  [words.a, words.b, words.c, words.d].flatMap fun word => littleEndian 4 word.toNat

end PlanGraph.Md5
