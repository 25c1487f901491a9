import Mathlib.Tactic

/-!
# Zstd.Xxh64 — the module-local xxh64 (`lib/zstd/common/xxhash.c`)

The four symbols the kernel does not export to modules: `xxh64_reset`, `xxh64_update`,
`xxh64_digest` and the one-shot `xxh64`.  A C pointer into the input is the list of the bytes from
there to the end of the input.  `mem64` is kept as its 32 bytes (little-endian target), and a copy
into it that would leave the buffer has no result (`memcpyMem64`).
-/

namespace ZramUpgrade.Xxh64

/-- The little-endian value of a byte list. -/
def leNat : List UInt8 → ℕ
  | [] => 0
  | b :: l => b.toNat + 256 * leNat l

/-- `get_unaligned_le64`. -/
def getUnalignedLe64 (p : List UInt8) : UInt64 := UInt64.ofNat (leNat (p.take 8))

/-- `get_unaligned_le32`. -/
def getUnalignedLe32 (p : List UInt8) : UInt32 := UInt32.ofNat (leNat (p.take 4))

/-! ## Mixing functions -/

def xxhPrime64_1 : UInt64 := 0x9E3779B185EBCA87
def xxhPrime64_2 : UInt64 := 0xC2B2AE3D27D4EB4F
def xxhPrime64_3 : UInt64 := 0x165667B19E3779F9
def xxhPrime64_4 : UInt64 := 0x85EBCA77C2B2AE63
def xxhPrime64_5 : UInt64 := 0x27D4EB2F165667C5

def xxh64Rotl (x r : UInt64) : UInt64 := (x <<< r) ||| (x >>> (64 - r))

def xxh64Round (acc input : UInt64) : UInt64 :=
  let acc := acc + input * xxhPrime64_2
  let acc := xxh64Rotl acc 31
  acc * xxhPrime64_1

def xxh64MergeRound (acc val : UInt64) : UInt64 :=
  let val := xxh64Round 0 val
  let acc := acc ^^^ val
  acc * xxhPrime64_1 + xxhPrime64_4

def xxh64Avalanche (hash : UInt64) : UInt64 :=
  let hash := hash ^^^ (hash >>> 33)
  let hash := hash * xxhPrime64_2
  let hash := hash ^^^ (hash >>> 29)
  let hash := hash * xxhPrime64_3
  hash ^^^ (hash >>> 32)

/-- The `while (len >= 8)` loop of `xxh64_finalize`. -/
def xxh64FinalizeWords (hash : UInt64) (ptr : List UInt8) (len : ℕ) :
    UInt64 × List UInt8 × ℕ :=
  if 8 ≤ len then
    let k1 := xxh64Round 0 (getUnalignedLe64 ptr)
    let hash := hash ^^^ k1
    xxh64FinalizeWords (xxh64Rotl hash 27 * xxhPrime64_1 + xxhPrime64_4) (ptr.drop 8) (len - 8)
  else (hash, ptr, len)
termination_by len
decreasing_by omega

/-- The `while (len > 0)` loop of `xxh64_finalize`. -/
def xxh64FinalizeBytes (hash : UInt64) (ptr : List UInt8) : ℕ → UInt64
  | 0 => hash
  | len + 1 =>
    let hash := hash ^^^ ((ptr.getD 0 0).toUInt64 * xxhPrime64_5)
    xxh64FinalizeBytes (xxh64Rotl hash 11 * xxhPrime64_1) (ptr.drop 1) len

/-- The `if (len >= 4)` step of `xxh64_finalize`. -/
def xxh64FinalizeHalf (hash : UInt64) (ptr : List UInt8) (len : ℕ) : UInt64 × List UInt8 × ℕ :=
  if 4 ≤ len then
    let k1 := getUnalignedLe32 ptr
    let hash := hash ^^^ (k1.toUInt64 * xxhPrime64_1)
    (xxh64Rotl hash 23 * xxhPrime64_2 + xxhPrime64_3, ptr.drop 4, len - 4)
  else (hash, ptr, len)

def xxh64Finalize (hash : UInt64) (ptr : List UInt8) (len : UInt64) : UInt64 :=
  let r := xxh64FinalizeWords hash ptr (len &&& 31).toNat
  let r := xxh64FinalizeHalf r.1 r.2.1 r.2.2
  xxh64Avalanche (xxh64FinalizeBytes r.1 r.2.1 r.2.2)

/-! ## The streaming state -/

/-- `struct xxh64_state`. -/
structure Xxh64State where
  totalLen : UInt64
  v1 : UInt64
  v2 : UInt64
  v3 : UInt64
  v4 : UInt64
  mem64 : Vector UInt8 32
  memsize : UInt32

def xxh64Reset (seed : UInt64) : Xxh64State where
  totalLen := 0
  v1 := seed + xxhPrime64_1 + xxhPrime64_2
  v2 := seed + xxhPrime64_2
  v3 := seed
  v4 := seed - xxhPrime64_1
  mem64 := Vector.replicate 32 0
  memsize := 0

/-- `__builtin_memcpy((uint8_t *)mem64 + off, p, len)`; no result if it leaves the buffer. -/
def memcpyMem64 (mem : Vector UInt8 32) (off : ℕ) (p : List UInt8) : Option (Vector UInt8 32) :=
  if off + p.length ≤ 32 then
    some (Vector.ofFn fun i : Fin 32 =>
      if off ≤ i ∧ i < off + p.length then p.getD (i - off) 0 else mem[i])
  else none

/-- The four rounds over the 32 bytes at `p`. -/
def Xxh64State.rounds (state : Xxh64State) (p : List UInt8) : Xxh64State :=
  { state with
    v1 := xxh64Round state.v1 (getUnalignedLe64 p)
    v2 := xxh64Round state.v2 (getUnalignedLe64 (p.drop 8))
    v3 := xxh64Round state.v3 (getUnalignedLe64 (p.drop 16))
    v4 := xxh64Round state.v4 (getUnalignedLe64 (p.drop 24)) }

/-- The `while (p + 32 <= end)` loop of `xxh64_update`. -/
def xxh64Stripes (state : Xxh64State) (p : List UInt8) : Xxh64State × List UInt8 :=
  if 32 ≤ p.length then xxh64Stripes (state.rounds p) (p.drop 32) else (state, p)
termination_by p.length
decreasing_by simp only [List.length_drop]; omega

/-- The arguments `(input, length)` of `xxh64_update`: a `NULL` pointer with its length, or a
buffer with all of its bytes. -/
inductive Input where
  | null (length : ℕ)
  | buf (p : List UInt8)

def EINVAL : ℤ := 22

/-- The `if (state->memsize)` step: complete the buffered stripe with the front of the input. -/
def xxh64Fill (state : Xxh64State) (p : List UInt8) : Option (Xxh64State × List UInt8) :=
  if state.memsize ≠ 0 then do
    let fill := 32 - state.memsize.toNat
    let mem ← memcpyMem64 state.mem64 state.memsize.toNat (p.take fill)
    let state := { state with mem64 := mem }.rounds mem.toList
    return ({ state with memsize := 0 }, p.drop fill)
  else some (state, p)

/-- `xxh64_update`: the return code and the new state.  `state->memsize + length` is a 64-bit sum. -/
def xxh64Update (state : Xxh64State) : Input → Option (ℤ × Xxh64State)
  | .null length => if length ≠ 0 then some (-EINVAL, state) else some (0, state)
  | .buf p => do
    let state := { state with totalLen := state.totalLen + UInt64.ofNat p.length }
    if (state.memsize.toNat + p.length) % 2 ^ 64 < 32 then
      let mem ← memcpyMem64 state.mem64 state.memsize.toNat p
      return (0, { state with mem64 := mem, memsize := state.memsize + UInt32.ofNat p.length })
    else
      let r ← xxh64Fill state p
      let r := xxh64Stripes r.1 r.2
      if 0 < r.2.length then
        let mem ← memcpyMem64 r.1.mem64 0 r.2
        return (0, { r.1 with mem64 := mem, memsize := UInt32.ofNat r.2.length })
      else return (0, r.1)

def xxh64Digest (state : Xxh64State) : UInt64 :=
  let h64 :=
    if 32 ≤ state.totalLen then
      let h64 := xxh64Rotl state.v1 1 + xxh64Rotl state.v2 7 + xxh64Rotl state.v3 12 +
        xxh64Rotl state.v4 18
      let h64 := xxh64MergeRound h64 state.v1
      let h64 := xxh64MergeRound h64 state.v2
      let h64 := xxh64MergeRound h64 state.v3
      xxh64MergeRound h64 state.v4
    else state.v3 + xxhPrime64_5
  xxh64Finalize (h64 + state.totalLen) state.mem64.toList state.totalLen

/-- The one-shot `xxh64`. -/
def xxh64 (input : Input) (seed : UInt64) : Option UInt64 := do
  let r ← xxh64Update (xxh64Reset seed) input
  return xxh64Digest r.2

end ZramUpgrade.Xxh64
