import AnimusDb.ItemIndex
import AnimusDb.ItemUpdate
import AnimusDb.TabletCodec

/-! The commands of a tablet's log, and what applying one reports. -/

open AnimusDb.Items
open ByteCodec (Bytes)
open RustText (Text)

namespace AnimusDb.Tablet

def kindBase : UInt8 := 0x00

def kindLsi : UInt8 := 0x01

def kindChange : UInt8 := 0x02

def kindFootprint : UInt8 := 0x03

def kindCursor : UInt8 := 0x04

/-- The kinds a tablet has a scope for. -/
def allKinds : List UInt8 := [kindBase, kindLsi, kindChange, kindFootprint, kindCursor]

/-- The engine key of a row: its kind in front of its key. -/
def physical (kind : UInt8) (key : Bytes) : Bytes := kind :: key

/-- The clock and region that stamp the writes of a multi-region table. -/
structure MrecStamp where
  wallMs : Nat
  regionId : Nat
deriving DecidableEq

/-- The frozen slice of a table's schema that a write carries. -/
structure EvalSchema extends WriteSchema where
  mrec : Option MrecStamp

/-- The operation that an entry evaluates when it is applied. -/
inductive KindEvalOp where
  | put (item : Item)
  | delete
  | update (keyItem : Item) (actions : List UpdateAction)
  | replicate (item : Option Item) (ver : MrecVersion)

def KindEvalOp.isReplicate : KindEvalOp → Bool
  | .replicate _ _ => true
  | _ => false

structure KindEvalEntry (Cond : Type) where
  schema : EvalSchema
  pk : AttributeValue
  sk : Option AttributeValue
  op : KindEvalOp
  condition : Option Cond
  ttlExpired : Bool

structure TxnWrite (Cond : Type) where
  key : Bytes
  value : Option Bytes
  kindWrites : List KindWrite
  changeLog : Option (Bytes × Bytes)
  stageMarker : Option (Bytes × Bytes)
  pending : Option (KindEvalEntry Cond)

structure TxnStage (Cond : Type) where
  txnId : TxnId
  recordKey : Bytes
  recordTable : Text
  isAnchor : Bool
  writes : List (TxnWrite Cond)
  spans : List (Text × KeyRange)
  conditions : List (Bytes × Option Bytes)

/-- A row shipped from another engine, with its version. -/
structure SeedRow where
  kind : UInt8
  key : Bytes
  value : Option Bytes
  version : Nat

inductive KvCommand (Cond : Type) where
  | put (key value : Bytes) (ts : HlcTimestamp)
  | batch (puts : List (Bytes × Bytes)) (ts : HlcTimestamp)
  | kindBatch (writes : List KindWrite) (changeLog : List (Bytes × Bytes)) (ts : HlcTimestamp)
  | kindEval (entry : KindEvalEntry Cond) (ts : HlcTimestamp)
  | kindEvalBatch (entries : List (KindEvalEntry Cond)) (ts : HlcTimestamp)
  | seedBatch (rows : List SeedRow) (ts : HlcTimestamp)
  | delete (key : Bytes) (ts : HlcTimestamp)
  | cas (key : Bytes) (expected : Option Bytes) (value : Bytes) (ts : HlcTimestamp)
  | freeze (ts : HlcTimestamp)
  | splitTablet (splitKey : Bytes) (children : SplitChild × SplitChild) (ts : HlcTimestamp)
  | readCeiling (ts : HlcTimestamp)
  | txnStage (stage : TxnStage Cond) (ts : HlcTimestamp)
  | txnCommit (txnId : TxnId) (recordKey : Bytes) (ts : HlcTimestamp)
  | txnAbort (txnId : TxnId) (recordKey : Bytes) (ts : HlcTimestamp) (orphanCreatedTs : Option HlcTimestamp)
  | txnCommitSealChecked (txnId : TxnId) (recordKey : Bytes) (ts : HlcTimestamp)
  | txnAbortSealChecked (txnId : TxnId) (recordKey : Bytes) (ts : HlcTimestamp)
      (orphanCreatedTs : Option HlcTimestamp)
  | txnResolve (txnId : TxnId) (recordKey : Bytes) (keys : List Bytes) (outcome : TxnOutcome)
      (ts : HlcTimestamp)
  | txnSettle (entries : List (TxnId × Bytes)) (ts : HlcTimestamp)
  | txnReap (entries : List (TxnId × Bytes)) (ts : HlcTimestamp)
  | noOp

def commandTs {Cond : Type} : KvCommand Cond → Option HlcTimestamp
  | .put _ _ ts | .batch _ ts | .kindBatch _ _ ts | .kindEval _ ts | .kindEvalBatch _ ts | .seedBatch _ ts
  | .delete _ ts | .cas _ _ _ ts | .freeze ts | .splitTablet _ _ ts | .readCeiling ts | .txnStage _ ts
  | .txnCommit _ _ ts | .txnAbort _ _ ts _ | .txnCommitSealChecked _ _ ts
  | .txnAbortSealChecked _ _ ts _ | .txnResolve _ _ _ _ ts | .txnSettle _ ts | .txnReap _ ts => some ts
  | .noOp => none

inductive StageOutcome where
  | staged
  | conditionFailed (key : Bytes)
  | intentBlocked (key : Bytes) (txnId : TxnId) (recordKey : Bytes) (recordTable : Text)
  | fenced
  | rejected (key : Bytes) (code message : String)
deriving DecidableEq

inductive ResolveOutcome where
  | resolved
  | fenced
  | outcomeMismatch
deriving DecidableEq

inductive KindBatchOutcome where
  | applied
  | conditionFailed (key : Bytes)
  | sealed (key : Bytes)
  | rejected (key : Bytes) (code message : String)
  | intentBlocked (key : Bytes)
deriving DecidableEq

/-- The leader's own result of an evaluated write: the images before and after. -/
structure KindEvalResult where
  old : Option Item
  new : Option Item
  superseded : Bool
deriving DecidableEq

inductive KindEvalItemResult where
  | applied (old new : Option Item)
  | conditionFailed
  | rejected (code message : String)
  | superseded (current : Option Item)
deriving DecidableEq

inductive ApplyOutcome where
  | silent
  | cas (swapped : Bool)
  | kindBatch (outcome : KindBatchOutcome)
  | kindEval (outcome : KindBatchOutcome) (result : Option KindEvalResult)
  | kindEvalBatch (outcome : KindBatchOutcome) (items : List KindEvalItemResult)
  | stage (outcome : StageOutcome)
  | resolve (outcome : ResolveOutcome)
deriving DecidableEq

def logicalBits : Nat := 20

/-- The engine version of a timestamp; `none` where the code panics. -/
def pack (ts : HlcTimestamp) : Option Nat :=
  if ts.logical < 2 ^ logicalBits ∧ ts.wallMs < 2 ^ (64 - logicalBits) then
    some (ts.wallMs * 2 ^ logicalBits + ts.logical)
  else none

def unpack (v : Nat) : HlcTimestamp := ⟨v / 2 ^ logicalBits, v % 2 ^ logicalBits⟩

end AnimusDb.Tablet
