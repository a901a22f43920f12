import PgRest.Bytes
import PgRest.Lib.Scan

/-! The decoder for chunked bodies, `phr_decode_chunked`. It goes over a buffer once and
writes the body over what it has read: the byte it writes next never lies behind the
byte it reads next, so what is still to be read is as it was received. -/
namespace PgRest.Http
open Lib

/-- `'\012'` -/
abbrev lf : UInt8 := 10
/-- `'\015'` -/
abbrev cr : UInt8 := 13

/-- `decode_hex` -/
def decodeHex (ch : UInt8) : Option Nat :=
  if 48 ≤ ch ∧ ch ≤ 57 then some (ch.toNat - 48)
  else if 65 ≤ ch ∧ ch ≤ 70 then some (ch.toNat - 65 + 10)
  else if 97 ≤ ch ∧ ch ≤ 102 then some (ch.toNat - 97 + 10)
  else none

inductive ChunkState where
  | size
  | ext
  | data
  | crlf
  | trailersLineHead
  | trailersLineMiddle
deriving DecidableEq, Repr

/-- `struct phr_chunked_decoder`. A size has at most 16 hexadecimal digits, so it
stays below 2^64. -/
structure Decoder where
  bytesLeftInChunk : Nat := 0
  consumeTrailer : Bool := false
  hexCount : Nat := 0
  state : ChunkState := .size
deriving DecidableEq, Repr

/-- One byte of a chunk extension, up to the line's end. -/
def Decoder.ext (d : Decoder) (c : UInt8) : Move Decoder UInt8 :=
  if c = lf then
    if d.bytesLeftInChunk = 0 then
      if d.consumeTrailer then .next { d with state := .trailersLineHead } [] else .done
    else .next { d with state := .data } []
  else .next { d with state := .ext } []

/-- What the loops of `phr_decode_chunked` do with one byte. -/
def Decoder.move (d : Decoder) (c : UInt8) : Move Decoder UInt8 :=
  match d.state with
  | .size =>
    match decodeHex c with
    | none => if d.hexCount = 0 then .fail else { d with hexCount := 0 }.ext c
    | some v =>
      if d.hexCount = 16 then .fail
      else .next { d with bytesLeftInChunk := d.bytesLeftInChunk * 16 + v, hexCount := d.hexCount + 1 } []
  | .ext => d.ext c
  | .data =>
    let left := d.bytesLeftInChunk - 1
    .next { d with bytesLeftInChunk := left, state := if left = 0 then .crlf else .data } [c]
  | .crlf =>
    if c = cr then .next d []
    else if c = lf then .next { d with state := .size } []
    else .fail
  | .trailersLineHead =>
    if c = cr then .next d []
    else if c = lf then .done
    else .next { d with state := .trailersLineMiddle } []
  | .trailersLineMiddle =>
    if c = lf then .next { d with state := .trailersLineHead } [] else .next d []

theorem Decoder.move_length {d d' : Decoder} {c : UInt8} {out : Bytes} (h : d.move c = .next d' out) :
    out.length ≤ 1 := by
  grind [Decoder.move, Decoder.ext]

/-- What `phr_decode_chunked` returns: PGREST_AGAIN, PGREST_ERROR, or the number of
bytes behind the body. -/
inductive Ret where
  | again
  | error
  | undecoded (n : Nat)
deriving DecidableEq, Repr

/-- `phr_decode_chunked`, over the bytes of the buffer: the decoder it leaves, what it
returns, the new `*bufsz`, and the bytes of the buffer. After an error the decoder is
not used again. -/
def decodeChunked (d : Decoder) (buf : Bytes) : Decoder × Ret × Nat × Bytes :=
  let r := scan Decoder.move d buf
  let bytes := r.out ++ r.rest ++ buf.drop (r.out.length + r.rest.length)
  match r with
  | .more d out => (d, .again, out.length, bytes)
  | .fail out _ => (d, .error, out.length, bytes)
  | .done out rest => (d, .undecoded rest.length, out.length, bytes)

end PgRest.Http
