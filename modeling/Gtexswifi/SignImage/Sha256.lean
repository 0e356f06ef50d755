import Mathlib.Data.List.Basic

/-! The SHA-256 of the signing tools. The array `buf` is modelled by the
`curlen` bytes of it that are in use. -/
namespace SignImage

/-- The eight words of a hash, or the working variables of a compression. -/
structure HashWords where
  a : UInt32
  b : UInt32
  c : UInt32
  d : UInt32
  e : UInt32
  f : UInt32
  g : UInt32
  h : UInt32
  deriving DecidableEq

/-- The state of a hash between two calls. The bytes in use never fill the
buffer there, so that the checks with which `sha256_process` and
`sha256_done` would return CRYPT_INVALID_ARG cannot succeed. -/
@[ext] structure Sha256State where
  length : UInt64
  state : HashWords
  buf : List UInt8
  curlen_lt : buf.length < 64
  deriving DecidableEq

def ror (x n : UInt32) : UInt32 := (x >>> n) ||| (x <<< (32 - n))

def ch (x y z : UInt32) : UInt32 := z ^^^ (x &&& (y ^^^ z))

def maj (x y z : UInt32) : UInt32 := ((x ||| y) &&& z) ||| (x &&& y)

def sigma0 (x : UInt32) : UInt32 := ror x 2 ^^^ ror x 13 ^^^ ror x 22

def sigma1 (x : UInt32) : UInt32 := ror x 6 ^^^ ror x 11 ^^^ ror x 25

def gamma0 (x : UInt32) : UInt32 := ror x 7 ^^^ ror x 18 ^^^ (x >>> 3)

def gamma1 (x : UInt32) : UInt32 := ror x 17 ^^^ ror x 19 ^^^ (x >>> 10)

def roundConstants : List UInt32 := [
  0x428a2f98, 0x71374491, 0xb5c0fbcf, 0xe9b5dba5, 0x3956c25b, 0x59f111f1, 0x923f82a4, 0xab1c5ed5,
  0xd807aa98, 0x12835b01, 0x243185be, 0x550c7dc3, 0x72be5d74, 0x80deb1fe, 0x9bdc06a7, 0xc19bf174,
  0xe49b69c1, 0xefbe4786, 0x0fc19dc6, 0x240ca1cc, 0x2de92c6f, 0x4a7484aa, 0x5cb0a9dc, 0x76f988da,
  0x983e5152, 0xa831c66d, 0xb00327c8, 0xbf597fc7, 0xc6e00bf3, 0xd5a79147, 0x06ca6351, 0x14292967,
  0x27b70a85, 0x2e1b2138, 0x4d2c6dfc, 0x53380d13, 0x650a7354, 0x766a0abb, 0x81c2c92e, 0x92722c85,
  0xa2bfe8a1, 0xa81a664b, 0xc24b8b70, 0xc76c51a3, 0xd192e819, 0xd6990624, 0xf40e3585, 0x106aa070,
  0x19a4c116, 0x1e376c08, 0x2748774c, 0x34b0bcb5, 0x391c0cb3, 0x4ed8aa4a, 0x5b9cca4f, 0x682e6ff3,
  0x748f82ee, 0x78a5636f, 0x84c87814, 0x8cc70208, 0x90befffa, 0xa4506ceb, 0xbef9a3f7, 0xc67178f2]

def load32H : List UInt8 → UInt32
  | [y0, y1, y2, y3] =>
      (y0.toUInt32 <<< 24) ||| (y1.toUInt32 <<< 16) ||| (y2.toUInt32 <<< 8) ||| y3.toUInt32
  | _ => 0

def store32H (x : UInt32) : List UInt8 :=
  [(x >>> 24).toUInt8, (x >>> 16).toUInt8, (x >>> 8).toUInt8, x.toUInt8]

def store64H (x : UInt64) : List UInt8 :=
  [(x >>> 56).toUInt8, (x >>> 48).toUInt8, (x >>> 40).toUInt8, (x >>> 32).toUInt8,
    (x >>> 24).toUInt8, (x >>> 16).toUInt8, (x >>> 8).toUInt8, x.toUInt8]

/-- `count` words of a block, the last one first. -/
def loadWords : Nat → List UInt8 → List UInt32 → List UInt32
  | 0, _, words => words
  | count + 1, buf, words => loadWords count (buf.drop 4) (load32H (buf.take 4) :: words)

/-- `count` further words of the schedule `W`, the last one first. -/
def fillWords : Nat → List UInt32 → List UInt32
  | 0, words => words
  | count + 1, words =>
      fillWords count
        ((gamma1 (words.getD 1 0) + words.getD 6 0 + gamma0 (words.getD 14 0) +
          words.getD 15 0) :: words)

/-- The macro `RND`, whose calls pass the working variables in rotation. -/
def rnd (s : HashWords) (ki wi : UInt32) : HashWords :=
  let t0 := s.h + sigma1 s.e + ch s.e s.f s.g + ki + wi
  let t1 := sigma0 s.a + maj s.a s.b s.c
  ⟨t0 + t1, s.a, s.b, s.c, s.d + t0, s.e, s.f, s.g⟩

def sha256Compress (state : HashWords) (buf : List UInt8) : HashWords :=
  let words := (fillWords 48 (loadWords 16 buf [])).reverse
  let s := (roundConstants.zip words).foldl (fun s kw => rnd s kw.1 kw.2) state
  ⟨state.a + s.a, state.b + s.b, state.c + s.c, state.d + s.d,
    state.e + s.e, state.f + s.f, state.g + s.g, state.h + s.h⟩

def sha256Init : Sha256State where
  length := 0
  state := ⟨0x6A09E667, 0xBB67AE85, 0x3C6EF372, 0xA54FF53A,
    0x510E527F, 0x9B05688C, 0x1F83D9AB, 0x5BE0CD19⟩
  buf := []
  curlen_lt := Nat.succ_pos 63

/-- Bytes that are put behind the buffered ones without completing a block
leave it open. -/
theorem length_buffered {buf input : List UInt8} (h : buf.length < 64)
    (hOpen : (buf ++ input.take (min input.length (64 - buf.length))).length ≠ 64) :
    (buf ++ input.take (min input.length (64 - buf.length))).length < 64 := by
  simp only [List.length_append, List.length_take] at hOpen ⊢
  omega

/-- The loop of `sha256_process`. Every pass takes at least one byte, so
that as many passes as there are bytes are enough. -/
def processLoop : Nat → Sha256State → List UInt8 → Sha256State
  | 0, md, _ => md
  | passes + 1, md, input =>
      if input.length = 0 then md
      else if md.buf.length = 0 ∧ 64 ≤ input.length then
        processLoop passes
          { md with
            length := md.length + 512
            state := sha256Compress md.state (input.take 64) }
          (input.drop 64)
      else
        let n := min input.length (64 - md.buf.length)
        let buf := md.buf ++ input.take n
        if hFull : buf.length = 64 then
          processLoop passes
            { length := md.length + 512
              state := sha256Compress md.state buf
              buf := []
              curlen_lt := Nat.succ_pos 63 }
            (input.drop n)
        else
          processLoop passes
            { md with buf := buf, curlen_lt := length_buffered md.curlen_lt hFull }
            (input.drop n)

def sha256Process (md : Sha256State) (input : List UInt8) : Sha256State :=
  processLoop input.length md input

def sha256Done (md : Sha256State) : List UInt8 :=
  let length := md.length + (md.buf.length * 8).toUInt64
  let buf := md.buf ++ [0x80]
  let (state, buf) :=
    if 56 < buf.length then
      (sha256Compress md.state (buf ++ List.replicate (64 - buf.length) 0), [])
    else (md.state, buf)
  let buf := buf ++ List.replicate (56 - buf.length) 0 ++ store64H length
  let state := sha256Compress state buf
  store32H state.a ++ store32H state.b ++ store32H state.c ++ store32H state.d ++
    store32H state.e ++ store32H state.f ++ store32H state.g ++ store32H state.h

def sha256CsumWd (input : List UInt8) : List UInt8 := sha256Done (sha256Process sha256Init input)

@[simp] theorem length_store32H (x : UInt32) : (store32H x).length = 4 := rfl

@[simp] theorem length_sha256CsumWd (input : List UInt8) : (sha256CsumWd input).length = 32 := by
  simp only [sha256CsumWd, sha256Done, List.length_append, length_store32H]

example : sha256CsumWd [0x61, 0x62, 0x63] = [
    0xba, 0x78, 0x16, 0xbf, 0x8f, 0x01, 0xcf, 0xea, 0x41, 0x41, 0x40, 0xde, 0x5d, 0xae, 0x22, 0x23,
    0xb0, 0x03, 0x61, 0xa3, 0x96, 0x17, 0x7a, 0x9c, 0xb4, 0x10, 0xff, 0x61, 0xf2, 0x00, 0x15,
    0xad] := by
  decide +kernel

end SignImage
