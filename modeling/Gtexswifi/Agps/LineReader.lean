import Gtexswifi.Library.Memory

/-! `readline` of the AT channel, over the memory of `s_ATBuffer`. A read or
a write outside the buffer is undefined and gives `none`. -/
namespace Agps.Atc

/-- `MAX_AT_RESPONSE`. -/
def maxAtResponse : Nat := 8 * 1024

def isNewline (c : UInt8) : Bool := c = 0x0d ∨ c = 0x0a

/-- `s_ATBuffer`, the index `s_ATBufferCur`, and what the device has not
delivered yet. -/
structure LineReader where
  buffer : List UInt8
  cur : Nat
  pending : List UInt8

/-- The reader after `atc_init`, with the zeroed buffer of a static object. -/
def LineReader.init (stream : List UInt8) : LineReader where
  buffer := List.replicate (maxAtResponse + 1) 0
  cur := 0
  pending := stream

/-- The first cell that is no newline, in the cells from an index on. -/
def skipNewlines : List UInt8 → Nat → Option Nat
  | [], _ => none
  | c :: cells, cur => if isNewline c = true then skipNewlines cells (cur + 1) else some cur

/-- The first newline, or `NULL` if the text ends before it. -/
def scanEol : List UInt8 → Nat → Option (Option Nat)
  | [], _ => none
  | c :: cells, cur =>
      if c = 0 then some none
      else if isNewline c = true then some (some cur)
      else scanEol cells (cur + 1)

/-- The prompt `"> "` at the end of the text is a line of its own. -/
def findNextEOL (cells : List UInt8) (cur : Nat) : Option (Option Nat) :=
  if cells.take 3 = [0x3e, 0x20, 0] then some (some (cur + 2)) else scanEol cells cur

/-- `strlen`. -/
def strlen : List UInt8 → Option Nat
  | [] => none
  | c :: cells => if c = 0 then some 0 else (strlen cells).map (· + 1)

/-- The text from an index on, as the caller reads it. -/
def cString (buffer : List UInt8) (ret : Nat) : List UInt8 :=
  (buffer.drop ret).takeWhile (· ≠ 0)

/-- The end of `readline`: a zero over the newline at `pEol`. -/
def returnLine (r : LineReader) (pEol : Nat) : Option (Option (List UInt8) × LineReader) := do
  let buffer ← Memory.write r.buffer pEol [0]
  return (some (cString buffer r.cur), { r with buffer := buffer, cur := pEol + 1 })

/-- A full buffer is given up. -/
def makeRoom (r : LineReader) (pRead : Nat) : Option (LineReader × Nat) :=
  if maxAtResponse - pRead = 0 then
    (Memory.write r.buffer 0 [0]).map fun buffer => (⟨buffer, 0, r.pending⟩, 0)
  else some (r, pRead)

/-- The loop that reads on at `pRead`. Every number is by how many bytes one
`read` could return more than one; when they are used up, and when the
device has nothing to deliver, a read fails and the call returns `NULL`. -/
def readLoop : List Nat → LineReader → Nat → Option (Option (List UInt8) × LineReader)
  | [], r, pRead => do
      let (r, _) ← makeRoom r pRead
      return (none, r)
  | more :: reads, r, pRead => do
      let (r, pRead) ← makeRoom r pRead
      let count := min (more + 1) (maxAtResponse - pRead)
      let chunk := r.pending.take count
      if chunk = [] then return (none, r)
      else
        let buffer ← Memory.write r.buffer pRead (chunk ++ [0])
        let cur ← skipNewlines (buffer.drop r.cur) r.cur
        let r : LineReader := ⟨buffer, cur, r.pending.drop count⟩
        match ← findNextEOL (buffer.drop cur) cur with
        | some pEol => returnLine r pEol
        | none => readLoop reads r (pRead + chunk.length)

/-- One call: the line it returns, or `none` for `NULL`, and the reader
afterwards. -/
def readline (reads : List Nat) (r : LineReader) : Option (Option (List UInt8) × LineReader) := do
  if (← r.buffer[r.cur]?) = 0 then
    let buffer ← Memory.write r.buffer 0 [0]
    readLoop reads { r with buffer := buffer, cur := 0 } 0
  else
    let cur ← skipNewlines (r.buffer.drop r.cur) r.cur
    match ← findNextEOL (r.buffer.drop cur) cur with
    | some pEol => returnLine { r with cur := cur } pEol
    | none =>
        -- a partial line, with its zero, goes to the start of the buffer
        let len ← strlen (r.buffer.drop cur)
        let text ← Memory.slice r.buffer cur (len + 1)
        let buffer ← Memory.write r.buffer 0 text
        readLoop reads { r with buffer := buffer, cur := 0 } len

end Agps.Atc
