/-! The hash function SHA3-256. -/
namespace OperandFlow.Sha3

/-- The 25 lanes of the state; lane (x, y) stands at 5 * y + x. -/
abbrev Lanes := Array UInt64

def lane (s : Lanes) (x y : Nat) : UInt64 :=
  s.getD (5 * (y % 5) + x % 5) 0

def ofLanes (f : Nat → Nat → UInt64) : Lanes :=
  (Array.range 25).map fun i => f (i % 5) (i / 5)

def rotate (x : UInt64) (n : Nat) : UInt64 :=
  (x <<< UInt64.ofNat n) ||| (x >>> UInt64.ofNat (64 - n))

def roundConstants : List UInt64 :=
  [0x0000000000000001, 0x0000000000008082, 0x800000000000808A, 0x8000000080008000,
    0x000000000000808B, 0x0000000080000001, 0x8000000080008081, 0x8000000000008009,
    0x000000000000008A, 0x0000000000000088, 0x0000000080008009, 0x000000008000000A,
    0x000000008000808B, 0x800000000000008B, 0x8000000000008089, 0x8000000000008003,
    0x8000000000008002, 0x8000000000000080, 0x000000000000800A, 0x800000008000000A,
    0x8000000080008081, 0x8000000000008080, 0x0000000080000001, 0x8000000080008008]

/-- How far each lane is rotated. -/
def rotations : Array Nat :=
  #[0, 1, 62, 28, 27,
    36, 44, 6, 55, 20,
    3, 10, 43, 25, 39,
    41, 45, 15, 21, 8,
    18, 2, 61, 56, 14]

/-- Adds to each lane the parities of two columns. -/
def theta (s : Lanes) : Lanes :=
  let parity := (Array.range 5).map fun x =>
    lane s x 0 ^^^ lane s x 1 ^^^ lane s x 2 ^^^ lane s x 3 ^^^ lane s x 4
  let change := (Array.range 5).map fun x =>
    parity.getD ((x + 4) % 5) 0 ^^^ rotate (parity.getD ((x + 1) % 5) 0) 1
  ofLanes fun x y => lane s x y ^^^ change.getD x 0

/-- Rotates the lanes and moves them about. -/
def rhoPi (s : Lanes) : Lanes :=
  ofLanes fun x y =>
    let fromX := (x + 3 * y) % 5
    rotate (lane s fromX x) (rotations.getD (5 * x + fromX) 0)

def chi (s : Lanes) : Lanes :=
  ofLanes fun x y => lane s x y ^^^ (~~~ lane s (x + 1) y &&& lane s (x + 2) y)

def round (s : Lanes) (constant : UInt64) : Lanes :=
  (chi (rhoPi (theta s))).modify 0 (· ^^^ constant)

def permute (s : Lanes) : Lanes :=
  roundConstants.foldl round s

/-- Bytes absorbed at a time. -/
def rate : Nat := 136

/-- Fills the last block up: the bits 011, zeros, and a final bit. -/
def pad (bytes : List UInt8) : List UInt8 :=
  match rate - bytes.length % rate with
  | 1 => bytes ++ [0x86]
  | free => bytes ++ 0x06 :: List.replicate (free - 2) 0 ++ [0x80]

/-- The first byte is the lowest. -/
def laneOfBytes (bytes : List UInt8) : UInt64 :=
  bytes.foldr (fun b acc => (acc <<< 8) ||| b.toUInt64) 0

def absorb (s : Lanes) (block : List UInt8) : Lanes :=
  permute (ofLanes fun x y =>
    let i := 5 * y + x
    lane s x y ^^^ if i < 17 then laneOfBytes ((block.drop (8 * i)).take 8) else 0)

/-- Absorbs so many blocks. -/
def absorbBlocks : Nat → Lanes → List UInt8 → Lanes
  | 0, s, _ => s
  | n + 1, s, bytes => absorbBlocks n (absorb s (bytes.take rate)) (bytes.drop rate)

def bytesOfLane (x : UInt64) : List UInt8 :=
  (List.range 8).map fun i => (x >>> UInt64.ofNat (8 * i)).toUInt8

def digest (bytes : List UInt8) : List UInt8 :=
  let padded := pad bytes
  let s := absorbBlocks (padded.length / rate) (Array.replicate 25 0) padded
  (List.range 4).flatMap fun i => bytesOfLane (s.getD i 0)

end OperandFlow.Sha3
