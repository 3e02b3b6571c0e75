import AnimusDb.ByteCodec
import Mathlib.Logic.Function.Iterate

/-! The write-ahead log of the storage engine: records in checksummed frames, sync markers between
them, and the decoder that tells a torn tail from damage. -/

open ByteCodec

namespace AnimusDb.Lsm

abbrev Key := Bytes

abbrev Value := Bytes

abbrev Version := Nat

/-- A batch op as logged; range deletes are expanded to the keys they affect. -/
inductive BatchOp where
  | put (key : Key) (value : Value)
  | delete (key : Key)
  | deleteKeys (keys : List Key)
deriving DecidableEq

/-- One decided merge: a value or a tombstone at its own version. -/
structure MergeRec where
  key : Key
  value : Option Value
  version : Version
deriving DecidableEq

inductive WalRecord where
  | put (key : Key) (value : Value) (version : Version)
  | delete (key : Key) (version : Version)
  | deleteRange (start «end» : Key) (keys : List Key) (version : Version)
  | batch (version : Version) (ops : List BatchOp)
  | mergeBatch (ops : List MergeRec)
deriving DecidableEq

def putOptBytes : Option Bytes → Bytes
  | some v => 1 :: putPrefixed v
  | none => [0]

/-- A list behind its count. -/
def putList {α : Type} (put : α → Bytes) (items : List α) : Bytes :=
  be 4 items.length ++ items.flatMap put

def encodeBatchOp : BatchOp → Bytes
  | .put key value => 0 :: (putPrefixed key ++ putPrefixed value)
  | .delete key => 1 :: putPrefixed key
  | .deleteKeys keys => 2 :: putList putPrefixed keys

def encodeMergeRec (rec : MergeRec) : Bytes :=
  putPrefixed rec.key ++ (putOptBytes rec.value ++ be 8 rec.version)

def encodeWalRecord : WalRecord → Bytes
  | .put key value version => 0 :: (putPrefixed key ++ (putPrefixed value ++ be 8 version))
  | .delete key version => 1 :: (putPrefixed key ++ be 8 version)
  | .deleteRange start stop keys version =>
    2 :: (putPrefixed start ++ (putPrefixed stop ++ (putList putPrefixed keys ++ be 8 version)))
  | .batch version ops => 3 :: (be 8 version ++ putList encodeBatchOp ops)
  | .mergeBatch ops => 4 :: putList encodeMergeRec ops

def readU8 : Reader Nat := number 1

def readOptBytes : Reader (Option Bytes) :=
  andThen readU8 fun
    | 0 => result none
    | 1 => andThen prefixed fun v => result (some v)
    | _ => fun _ => none

def readList {α : Type} (read : Reader α) : Reader (List α) := andThen (number 4) (times read)

def decodeBatchOp : Reader BatchOp :=
  andThen readU8 fun
    | 0 => andThen prefixed fun key => andThen prefixed fun value => result (.put key value)
    | 1 => andThen prefixed fun key => result (.delete key)
    | 2 => andThen (readList prefixed) fun keys => result (.deleteKeys keys)
    | _ => fun _ => none

def decodeMergeRec : Reader MergeRec :=
  andThen prefixed fun key => andThen readOptBytes fun value => andThen (number 8) fun version =>
    result ⟨key, value, version⟩

/-- The fields of a record behind its tag. -/
def readWalRecord : Reader WalRecord :=
  andThen readU8 fun
    | 0 => andThen prefixed fun key => andThen prefixed fun value => andThen (number 8) fun version =>
      result (.put key value version)
    | 1 => andThen prefixed fun key => andThen (number 8) fun version => result (.delete key version)
    | 2 => andThen prefixed fun start => andThen prefixed fun stop =>
      andThen (readList prefixed) fun keys => andThen (number 8) fun version =>
        result (.deleteRange start stop keys version)
    | 3 => andThen (number 8) fun version => andThen (readList decodeBatchOp) fun ops =>
      result (.batch version ops)
    | 4 => andThen (readList decodeMergeRec) fun ops => result (.mergeBatch ops)
    | _ => fun _ => none

/-- A record that takes up its whole payload. -/
def decodeWalRecord (bytes : Bytes) : Option WalRecord :=
  match readWalRecord bytes with
  | some (record, []) => some record
  | _ => none

/-- One bit of the reflected polynomial division. -/
def crc32Bit (c : Nat) : Nat := if c % 2 = 1 then Nat.xor 0xEDB88320 (c / 2) else c / 2

def crc32Byte (c : Nat) (b : UInt8) : Nat := (crc32Bit^[8]) (Nat.xor c b.toNat)

/-- CRC-32, as `crc32fast` computes it. -/
def crc32 (bytes : Bytes) : UInt32 :=
  UInt32.ofNat (Nat.xor 0xFFFFFFFF (bytes.foldl crc32Byte 0xFFFFFFFF))

example : crc32 [0x31, 0x32, 0x33, 0x34, 0x35, 0x36, 0x37, 0x38, 0x39] = 0xCBF43926 := by
  decide +kernel

variable (crc : Bytes → UInt32)

def walFrameHeaderBytes : Nat := 8

/-- Length, checksum, payload. -/
def encodeFrame (payload : Bytes) : Bytes :=
  be 4 payload.length ++ (be 4 (crc payload).toNat ++ payload)

def encodeWal (record : WalRecord) : Bytes := encodeFrame crc (encodeWalRecord record)

def walMarkerTag : UInt8 := 5

def encodeWalMarker (offset : Nat) : Bytes := encodeFrame crc (walMarkerTag :: be 8 offset)

def walMagic : Bytes := [0x4c, 0x57, 0x4c, 0x31]

def walVersion : UInt8 := 2

def walHeaderLen : Nat := 5

def encodeWalHeader : Bytes := walMagic ++ [walVersion]

/-- A checksummed payload at the front of the input, and the length of its frame. -/
def parseFrame (input : Bytes) : Option (Bytes × Nat) :=
  if input.length < walFrameHeaderBytes then none
  else
    let len := ofBe (input.take 4)
    let sum := ofBe ((input.drop 4).take 4)
    if input.length < walFrameHeaderBytes + len then none
    else
      let payload := (input.drop walFrameHeaderBytes).take len
      if (crc payload).toNat = sum then some (payload, walFrameHeaderBytes + len) else none

/-- The record in the frame at a position, and the position after the frame. -/
def tryParseWalFrame (bytes : Bytes) (pos : Nat) : Option (WalRecord × Nat) := do
  let (payload, size) ← parseFrame crc (bytes.drop pos)
  let record ← decodeWalRecord payload
  some (record, pos + size)

/-- The offset that the marker at a position claims, and the position after the marker. -/
def tryParseWalMarker (bytes : Bytes) (pos : Nat) : Option (Nat × Nat) := do
  let (payload, size) ← parseFrame crc (bytes.drop pos)
  match payload with
  | tag :: offset =>
    if tag = walMarkerTag ∧ offset.length = 8 then some (ofBe offset, pos + size) else none
  | [] => none

/-- Whether a marker stands at the position that it claims. -/
def isPlacedMarker (body : Bytes) (pos : Nat) : Bool :=
  (tryParseWalMarker crc body pos).any fun (claimed, _) => claimed == walHeaderLen + pos

def walMarkerAfter (body : Bytes) (start : Nat) : Option Nat :=
  (List.range' start (body.length - start)).find? (isPlacedMarker crc body)

def walResyncPoint (bytes : Bytes) (start : Nat) : Option Nat :=
  (List.range' start (bytes.length - start)).find? fun p => (tryParseWalFrame crc bytes p).isSome

inductive StorageError where
  | preBaselineFormat (format : String)
  | unsupportedFormatVersion (format : String) (found maxSupported : Nat)
  | backend (message : String)

def misplacedMarker (pos claimed : Nat) : StorageError :=
  .backend ("WAL sync marker at byte offset " ++ toString (walHeaderLen + pos) ++ " claims offset " ++
    toString claimed ++ ": not where it says it is, so the file is corrupt")

def corruptBeforeMarker (pos marker : Nat) : StorageError :=
  .backend ("corrupt WAL record at byte offset " ++ toString (walHeaderLen + pos) ++
    " (past the file header): a durable sync marker at offset " ++ toString (walHeaderLen + marker) ++
    " proves every byte before it was fsynced, so this is not a torn tail — refusing to silently drop " ++
    "history")

def corruptBeforeRecord (pos : Nat) : StorageError :=
  .backend ("corrupt WAL record at byte offset " ++ toString pos ++ " (past the file header): a valid " ++
    "record still parses later in the file, so this is not a torn tail — refusing to silently drop " ++
    "history")

/-- The loop of `decode_wal_v2`. A frame is at least eight bytes long, so the length of the body is
fuel enough. -/
def decodeLoop (body : Bytes) : Nat → Nat → Except StorageError (List WalRecord × Nat)
  | 0, pos => .ok ([], walHeaderLen + pos)
  | fuel + 1, pos =>
    if body.length ≤ pos then .ok ([], walHeaderLen + pos)
    else
      match tryParseWalFrame crc body pos with
      | some (record, next) => do
          let (records, consumed) ← decodeLoop body fuel next
          .ok (record :: records, consumed)
      | none =>
        match tryParseWalMarker crc body pos with
        | some (claimed, next) =>
          if claimed = walHeaderLen + pos then decodeLoop body fuel next
          else .error (misplacedMarker pos claimed)
        | none =>
          match walMarkerAfter crc body (pos + 1) with
          | some m => .error (corruptBeforeMarker pos m)
          | none => .ok ([], walHeaderLen + pos)

def decodeWalV2 (body : Bytes) : Except StorageError (List WalRecord × Nat) :=
  decodeLoop crc body (body.length + 1) 0

/-- The loop of the decoder of the first version, which has no markers. -/
def decodeLoopV1 (body : Bytes) : Nat → Nat → Except StorageError (List WalRecord × Nat)
  | 0, pos => .ok ([], walHeaderLen + pos)
  | fuel + 1, pos =>
    if body.length ≤ pos then .ok ([], walHeaderLen + pos)
    else
      match tryParseWalFrame crc body pos with
      | some (record, next) => do
          let (records, consumed) ← decodeLoopV1 body fuel next
          .ok (record :: records, consumed)
      | none =>
        if (walResyncPoint crc body (pos + 1)).isSome then .error (corruptBeforeRecord pos)
        else .ok ([], walHeaderLen + pos)

def decodeWal (bytes : Bytes) : Except StorageError (List WalRecord × Nat) :=
  if bytes.length < walHeaderLen then .ok ([], 0)
  else if bytes.take 4 ≠ walMagic then .error (.preBaselineFormat "lsm-wal")
  else
    let body := bytes.drop walHeaderLen
    match bytes.getD 4 0 with
    | 1 => decodeLoopV1 crc body (body.length + 1) 0
    | 2 => decodeWalV2 crc body
    | v => .error (.unsupportedFormatVersion "lsm-wal" v.toNat walVersion.toNat)

/-- What `flush_batch` appends to a segment that has its header: a marker if one is due, then the
records. -/
def writeBatch (file : Bytes) (withMarker : Bool) (records : List WalRecord) : Bytes :=
  file ++ ((if withMarker then encodeWalMarker crc file.length else []) ++ records.flatMap (encodeWal crc))

end AnimusDb.Lsm
