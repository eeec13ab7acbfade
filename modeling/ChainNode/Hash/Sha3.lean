import ChainNode.Bytes

/-!
# SHA3-256

The sponge of FIPS 202 with a capacity of 512 bits. The state is five rows of five 64-bit lanes:
`θ` mixes columns, `ρ` and `π` rotate lanes and move them, `χ` is the only nonlinear step and works
inside a row, `ι` breaks the symmetry. A message is padded to a whole number of blocks of 136
bytes, each block is added to the first seventeen lanes, and the digest is the first four lanes.
-/

namespace ChainNode.Sha3

/-- Five lanes with the same second coordinate. -/
structure Row where
  x0 : UInt64
  x1 : UInt64
  x2 : UInt64
  x3 : UInt64
  x4 : UInt64

/-- Lane by lane exclusive or. -/
def Row.xor (r s : Row) : Row :=
  ⟨r.x0 ^^^ s.x0, r.x1 ^^^ s.x1, r.x2 ^^^ s.x2, r.x3 ^^^ s.x3, r.x4 ^^^ s.x4⟩

/-- The row of zeros. -/
def Row.zero : Row := ⟨0, 0, 0, 0, 0⟩

/-- Twenty-five lanes, row by row. -/
structure State where
  y0 : Row
  y1 : Row
  y2 : Row
  y3 : Row
  y4 : Row

/-- The state before the first block. -/
def State.zero : State := ⟨.zero, .zero, .zero, .zero, .zero⟩

/-- A lane rotated towards its high end. -/
def rotate (x n : UInt64) : UInt64 :=
  (x <<< n) ||| (x >>> (64 - n))

/-- Adds to each lane the parities of two neighbouring columns. -/
def theta (s : State) : State :=
  let c := (((s.y0.xor s.y1).xor s.y2).xor s.y3).xor s.y4
  let d : Row :=
    ⟨c.x4 ^^^ rotate c.x1 1, c.x0 ^^^ rotate c.x2 1, c.x1 ^^^ rotate c.x3 1,
      c.x2 ^^^ rotate c.x4 1, c.x3 ^^^ rotate c.x0 1⟩
  ⟨s.y0.xor d, s.y1.xor d, s.y2.xor d, s.y3.xor d, s.y4.xor d⟩

/-- Rotates each lane by its own offset and moves it to its place. -/
def rhoPi (s : State) : State where
  y0 := ⟨s.y0.x0, rotate s.y1.x1 44, rotate s.y2.x2 43, rotate s.y3.x3 21, rotate s.y4.x4 14⟩
  y1 := ⟨rotate s.y0.x3 28, rotate s.y1.x4 20, rotate s.y2.x0 3, rotate s.y3.x1 45,
    rotate s.y4.x2 61⟩
  y2 := ⟨rotate s.y0.x1 1, rotate s.y1.x2 6, rotate s.y2.x3 25, rotate s.y3.x4 8,
    rotate s.y4.x0 18⟩
  y3 := ⟨rotate s.y0.x4 27, rotate s.y1.x0 36, rotate s.y2.x1 10, rotate s.y3.x2 15,
    rotate s.y4.x3 56⟩
  y4 := ⟨rotate s.y0.x2 62, rotate s.y1.x3 55, rotate s.y2.x4 39, rotate s.y3.x0 41,
    rotate s.y4.x1 2⟩

/-- The nonlinear step inside one row. -/
def chiRow (r : Row) : Row :=
  ⟨r.x0 ^^^ (~~~r.x1 &&& r.x2), r.x1 ^^^ (~~~r.x2 &&& r.x3), r.x2 ^^^ (~~~r.x3 &&& r.x4),
    r.x3 ^^^ (~~~r.x4 &&& r.x0), r.x4 ^^^ (~~~r.x0 &&& r.x1)⟩

/-- The nonlinear step. -/
def chi (s : State) : State :=
  ⟨chiRow s.y0, chiRow s.y1, chiRow s.y2, chiRow s.y3, chiRow s.y4⟩

/-- Adds a round constant to the first lane. -/
def iota (rc : UInt64) (s : State) : State :=
  { s with y0 := { s.y0 with x0 := s.y0.x0 ^^^ rc } }

/-- The constants of the twenty-four rounds. -/
def roundConstants : List UInt64 :=
  [0x0000000000000001, 0x0000000000008082, 0x800000000000808a, 0x8000000080008000,
    0x000000000000808b, 0x0000000080000001, 0x8000000080008081, 0x8000000000008009,
    0x000000000000008a, 0x0000000000000088, 0x0000000080008009, 0x000000008000000a,
    0x000000008000808b, 0x800000000000008b, 0x8000000000008089, 0x8000000000008003,
    0x8000000000008002, 0x8000000000000080, 0x000000000000800a, 0x800000008000000a,
    0x8000000080008081, 0x8000000000008080, 0x0000000080000001, 0x8000000080008008]

/-- The permutation of the state: twenty-four rounds. -/
def permute (s : State) : State :=
  roundConstants.foldl (fun s rc => iota rc (chi (rhoPi (theta s)))) s

/-- The lane at a place in a block. -/
def lane (block : Bytes) (i : Nat) : UInt64 :=
  UInt64.ofNat (ofLittleEndian ((block.drop (8 * i)).take 8))

/-- Adds a block of seventeen lanes to the state. -/
def State.add (s : State) (block : Bytes) : State :=
  let at' := lane block
  { y0 := s.y0.xor ⟨at' 0, at' 1, at' 2, at' 3, at' 4⟩
    y1 := s.y1.xor ⟨at' 5, at' 6, at' 7, at' 8, at' 9⟩
    y2 := s.y2.xor ⟨at' 10, at' 11, at' 12, at' 13, at' 14⟩
    y3 := s.y3.xor ⟨at' 15, at' 16, 0, 0, 0⟩
    y4 := s.y4 }

/-- Bytes in a block. -/
def rate : Nat := 136

/-- What follows a message of so many bytes: the bits `011`, zeros, and a last one. -/
def padding (length : Nat) : Bytes :=
  match rate - length % rate with
  | 0 => []
  | 1 => [0x86]
  | k + 2 => 0x06 :: (List.replicate k 0 ++ [0x80])

/-- Takes in so many blocks. -/
def absorb : Nat → State → Bytes → State
  | 0, s, _ => s
  | n + 1, s, message => absorb n (permute (s.add (message.take rate))) (message.drop rate)

/-- The digest of a message. -/
def digest (message : Bytes) : Vector UInt8 32 :=
  let s := absorb (message.length / rate + 1) .zero (message ++ padding message.length)
  Vector.ofFn fun i =>
    let x := match i.val / 8 with
      | 0 => s.y0.x0
      | 1 => s.y0.x1
      | 2 => s.y0.x2
      | _ => s.y0.x3
    (x >>> UInt64.ofNat (8 * (i.val % 8))).toUInt8

end ChainNode.Sha3
