import Solocoder.Lib.BigEndian

/-!
# Records of the write-ahead log

A record of `internal/wal` is 19 bytes of header (magic number, checksum, offset, type and length of
the data) and the data. The checksum covers all that follows it.
-/

namespace Solocoder.Wal

open Lib

abbrev Bytes := List UInt8

/-- `OpType`. `Append` takes every byte, not only the three constants. -/
abbrev OpType := UInt8

def opPut : OpType := 1
def opCheckpoint : OpType := 3

def entryHeaderSize : Nat := 19
def magicNumber : Nat := 0x5741

/-- `Entry`; the offset is an `int64`. -/
structure Entry where
  offset : Int
  type : OpType
  data : Bytes
  deriving DecidableEq, Repr

/-- The conversion `int64(n)`. -/
def int64 (n : Int) : Int := Int.bmod n (2 ^ 64)

/-- The conversion `uint64(n)`. -/
def uint64 (n : Int) : Nat := (n % 2 ^ 64).toNat

/-- One bit of CRC-32 with the polynomial of IEEE 802.3, reflected. -/
def crcBit (c : UInt32) : UInt32 :=
  if c &&& 1 = 1 then (c >>> 1) ^^^ 0xedb88320 else c >>> 1

/-- One byte of the checksum. -/
def crcByte (c : UInt32) (b : UInt8) : UInt32 := crcBit^[8] (c ^^^ b.toUInt32)

def checksumIEEE (bs : Bytes) : UInt32 := bs.foldl crcByte 0xffffffff ^^^ 0xffffffff

example : checksumIEEE [0x31, 0x32, 0x33, 0x34, 0x35, 0x36, 0x37, 0x38, 0x39] = 0xcbf43926 := by
  decide +kernel

/-- The bytes of a record that the checksum covers. -/
def checksumPayload (e : Entry) : Bytes :=
  putBE 8 (uint64 e.offset) ++ e.type :: putBE 4 e.data.length ++ e.data

/-- `encodeEntry`, which never fails. -/
def encodeEntry (e : Entry) : Bytes :=
  putBE 2 magicNumber ++ putBE 4 (checksumIEEE (checksumPayload e)).toNat ++ checksumPayload e

/-- The errors of `decodeEntry`, and the one of `streamScanEntry` about a wrong magic number. -/
inductive DecodeErr where
  | tooShort (length : Nat)
  | invalidMagic (magic : Nat)
  | unexpectedEOF
  | checksumMismatch (expected actual : Nat)
  deriving DecidableEq, Repr

/-- The verb `%x`. -/
def hex (n : Nat) : String := String.ofList (Nat.toDigits 16 n)

/-- `Error()`. -/
def DecodeErr.text : DecodeErr → String
  | tooShort n => s!"data too short: {n} bytes, need {entryHeaderSize}"
  | invalidMagic m => "invalid magic number: 0x" ++ hex m
  | unexpectedEOF => "unexpected EOF"
  | checksumMismatch e a => "checksum mismatch: expected 0x" ++ hex e ++ ", got 0x" ++ hex a

/-- The slice `data[i:j]`. -/
def slice (data : Bytes) (i j : Nat) : Bytes := (data.take j).drop i

/-- `decodeEntry`, which returns the entry and the length of its record. -/
def decodeEntry (data : Bytes) : Except DecodeErr (Entry × Nat) :=
  if data.length < entryHeaderSize then .error (.tooShort data.length)
  else
    let magic := getBE (slice data 0 2)
    if magic ≠ magicNumber then .error (.invalidMagic magic)
    else
      let checksum := getBE (slice data 2 6)
      let dataLen := getBE (slice data 15 19)
      let totalLen := entryHeaderSize + dataLen
      if data.length < totalLen then .error .unexpectedEOF
      else
        let payload :=
          slice data 6 14 ++ slice data 14 15 ++ slice data 15 19 ++ slice data 19 totalLen
        let actualChecksum := (checksumIEEE payload).toNat
        if actualChecksum ≠ checksum then .error (.checksumMismatch checksum actualChecksum)
        else
          .ok (⟨int64 (getBE (slice data 6 14)), data.getD 14 0, slice data 19 totalLen⟩, totalLen)

end Solocoder.Wal
