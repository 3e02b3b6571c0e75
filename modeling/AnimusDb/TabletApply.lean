import AnimusDb.TabletCommand
import AnimusDb.TabletRows

/-! Applying a tablet's log to its engine. A replica keeps the engine it was started with and the storage
calls it has made since, each durable as a whole; the merges it has queued but not yet called for; and the
flags it holds in memory. An arm that panics has no result. -/

open AnimusDb.Items
open AnimusDb.Lsm (MemoryEngine MergeOp VersionedValue)
open scoped AnimusDb.Lsm
open ByteCodec (Bytes be)
open RustText (Text)

namespace AnimusDb.Tablet

/-- One replica of a tablet, as its apply task sees it. -/
structure Replica where
  base : MemoryEngine
  journal : List (List MergeOp)
  pending : List MergeOp
  sealed : List (KeyRange × HlcTimestamp)
  frozen : Bool
  committedCeiling : Nat
  maxAppliedTs : Option HlcTimestamp

namespace Replica

variable (r : Replica)

/-- The engine after every storage call made so far. -/
def engine : MemoryEngine := r.base.mergeAll r.journal.flatten

/-- The engine as a reader sees it that waits for the queued merges. -/
def view : MemoryEngine := r.engine.mergeAll r.pending

/-- The engine that a crash leaves behind after some of the storage calls. -/
def kept (calls : Nat) : MemoryEngine := r.base.mergeAll (r.journal.take calls).flatten

/-- One storage call. -/
def commit (ops : List MergeOp) : Replica := { r with journal := r.journal ++ [ops] }

def merge (op : MergeOp) : Replica := r.commit [op]

def push (ops : List MergeOp) : Replica := { r with pending := r.pending ++ ops }

def flushPending : Replica := if r.pending = [] then r else { r.commit r.pending with pending := [] }

end Replica

/-- Whether a key falls in a range the group has sealed. -/
def isSealed (sealed : List (KeyRange × HlcTimestamp)) (key : Bytes) : Bool :=
  sealed.any fun s => s.1.contains key

/-- The envelope at a key: `none` where decoding panics, `some none` where nothing is stored. -/
def readEnvelope (m : MemoryEngine) (key : Bytes) : Option (Option Envelope) :=
  match m.read key with
  | none => some none
  | some vv => (decodeEnvelope vv.value).map some

def readRecordAt (m : MemoryEngine) (key : Bytes) : Option TxnRecord :=
  (m.read key).bind fun vv => decodeRecord vv.value

variable {Cond : Type}

/-- How a condition fails to evaluate. -/
inductive ConditionFailure where
  | error (message : String)
  | panic

/-- What the tablet takes from the item layer. -/
structure ItemLayer (Cond : Type) where
  stored : StoredCodec
  changeRecord : ChangeRecord → Bytes
  evaluate : Cond → Option Item → Except ConditionFailure Bool
  partitionToken : Bytes → Bytes
  length_partitionToken : ∀ key, (partitionToken key).length = tokenBytes

variable (items : ItemLayer Cond)

inductive KindEvalDecision where
  | applied (writes : List KindWrite) (changeLog : Bytes × Bytes) (old new : Option Item)
      (newVer : Option MrecVersion)
  | superseded (current : Option Item)
  | conditionFailed
  | rejected (code message : String)

def tokenOf (pk : AttributeValue) : Bytes := items.partitionToken (storageKey pk none)

def kindEvalBaseKey (pk : AttributeValue) (sk : Option AttributeValue) : Bytes :=
  tokenOf items pk ++ storageKey pk sk

def kindEvalApplied (e : KindEvalEntry Cond) (old new : Option Item) (newVer : Option MrecVersion) :
    KindEvalDecision :=
  let baseValue :=
    match new, newVer with
    | some item, none => encodeStoredItem items.stored item
    | none, none => encodeTombstone items.stored
    | some item, some ver => encodeStoredItemVersioned items.stored item ver
    | none, some ver => encodeTombstoneVersionedKeyed items.stored ver e.pk e.sk
  let derived := deriveKindWrites ⟨encodeStoredItem items.stored, items.changeRecord⟩ e.schema.toWriteSchema
    { pk := e.pk, sk := e.sk, tokenPrefix := tokenOf items e.pk, baseValue, old, new,
      ttlExpired := e.ttlExpired, kindBase := kindBase, kindLsi := kindLsi }
  .applied derived.writes derived.changeLog old new newVer

/-- The decision that a condition forces, if any; the outer `none` is a panic. -/
def checkCondition (condition : Option Cond) (old : Option Item) : Option (Option KindEvalDecision) :=
  match condition with
  | none => some none
  | some cond =>
    match items.evaluate cond old with
    | .ok true => some none
    | .ok false => some (some .conditionFailed)
    | .error (.error message) => some (some (.rejected "ValidationException" message))
    | .error .panic => none

/-- The item that a local operation makes of the old one. -/
def localResult (op : KindEvalOp) (old : Option Item) : Option (Except KindEvalDecision (Option Item)) :=
  match op with
  | .put item => some (.ok (some item))
  | .delete => some (.ok none)
  | .update keyItem actions =>
    match applyUpdate (old.getD keyItem) actions with
    | .ok item => some (.ok (some item))
    | .error (.error e) => some (.error (.rejected e.code e.message))
    | .error .panic => none
  -- handled before the operation is folded
  | .replicate _ _ => none

/-- A write of this region: checked, folded over the old item, and stamped on a multi-region table. -/
def evaluateLocal (e : KindEvalEntry Cond) (old : Option Item) (storedVer : Option MrecVersion) :
    Option KindEvalDecision := do
  match ← checkCondition items e.condition old with
  | some decision => some decision
  | none =>
    match ← localResult e.op old with
    | .error decision => some decision
    | .ok new =>
      let newVer := e.schema.mrec.map fun m => MrecVersion.nextLocal storedVer m.wallMs m.regionId
      some (kindEvalApplied items e old new newVer)

/-- The evaluation core of a self-contained write. A replicated record is unconditional: its stamp alone decides. -/
def evaluateKindEval (e : KindEvalEntry Cond) (old : Option Item) (storedVer : Option MrecVersion) :
    Option KindEvalDecision :=
  match e.op with
  | .replicate item ver =>
    if e.schema.mrec.isNone then
      some (.rejected "ValidationException" "MREC replicate on a table that is not an MREC global table")
    else if !ver.supersedes storedVer then some (.superseded old)
    else some (kindEvalApplied items e old item (some ver))
  | _ => evaluateLocal items e old storedVer

/-- The stored item and stamp behind an envelope. -/
def storedItemOf : Option Envelope → Option (Option Item × Option MrecVersion)
  | some (.committed bytes) => decodeStoredItemVersioned items.stored bytes
  | _ => some (none, none)

/-- The rows of a write set at a version, then its change records, numbered from an ordinal. -/
def materializeDerived (writes : List KindWrite) (changeLog : List (Bytes × Bytes)) (version ordinal : Nat) :
    List MergeOp × Nat :=
  (writes.filterMap (fun w =>
      if allKinds.contains w.1.1 then some ⟨physical w.1.1 w.1.2, version, w.2.map encodeCommitted⟩
      else none) ++
    changeLog.mapIdx (fun i record =>
      ⟨physical kindChange (record.1 ++ (be 8 version ++ be 4 (ordinal + i))), version,
        some (encodeCommitted record.2)⟩),
    ordinal + changeLog.length)

variable (r : Replica)

def applyPut (key value : Bytes) (ts : HlcTimestamp) : Option Replica :=
  if isSealed r.sealed key then some r
  else (pack ts).map fun version => r.push [⟨physical kindBase key, version, some (encodeCommitted value)⟩]

def applyBatch (puts : List (Bytes × Bytes)) (ts : HlcTimestamp) : Option Replica :=
  if puts.all fun p => !isSealed r.sealed p.1 then
    (pack ts).map fun version =>
      r.push (puts.map fun p => ⟨physical kindBase p.1, version, some (encodeCommitted p.2)⟩)
  else some r

def applySeedBatch (rows : List SeedRow) : Replica :=
  if rows.all fun row => !isSealed r.sealed row.key then
    r.push (rows.filterMap fun row =>
      if allKinds.contains row.kind then some ⟨physical row.kind row.key, row.version, row.value⟩ else none)
  else r

def applyKindBatch (writes : List KindWrite) (changeLog : List (Bytes × Bytes)) (ts : HlcTimestamp) :
    Option (Replica × KindBatchOutcome) :=
  let carriesUserData := writes.any fun w => w.1.1 = kindBase || w.1.1 = kindLsi
  let sealedKey := if carriesUserData then writes.find? fun w => isSealed r.sealed w.1.2 else none
  match sealedKey with
  | some w => some (r, .sealed w.1.2)
  | none =>
    -- with nothing to materialise the timestamp is never packed
    if (materializeDerived writes changeLog 0 0).1 = [] then some (r, .applied)
    else (pack ts).map fun version => (r.push (materializeDerived writes changeLog version 0).1, .applied)

def applyDelete (key : Bytes) (ts : HlcTimestamp) : Option Replica :=
  if isSealed r.sealed key then some r
  else (pack ts).map fun version => r.push [⟨physical kindBase key, version, none⟩]

def applyCas (key : Bytes) (expected : Option Bytes) (value : Bytes) (ts : HlcTimestamp) :
    Option (Replica × Bool) :=
  let r := r.flushPending
  if isSealed r.sealed key then some (r, false)
  else do
    let swapped : Bool :=
      match ← readEnvelope r.engine (physical kindBase key) with
      | none => expected = none
      | some (.committed v) => some v = expected
      | some (.intent _) => false
    if swapped then
      let version ← pack ts
      some (r.merge ⟨physical kindBase key, version, some (encodeCommitted value)⟩, true)
    else some (r, false)

/-- The newest record of a key, tombstones included, is at or above the entry's version. -/
def keyReachedByEntry (m : MemoryEngine) (key : Bytes) (version : Nat) : Bool :=
  match m.read key with
  | some vv => version ≤ vv.version
  | none => (m.latestVersionOf key).any fun v => version ≤ v

def applyKindEval (e : KindEvalEntry Cond) (ts : HlcTimestamp) :
    Option (Replica × KindBatchOutcome × Option KindEvalResult) :=
  let r := r.flushPending
  let baseKey := kindEvalBaseKey items e.pk e.sk
  if isSealed r.sealed baseKey then some (r, .sealed baseKey, none)
  else do
    let version ← pack ts
    let row ← readEnvelope r.engine (physical kindBase baseKey)
    if keyReachedByEntry r.engine (physical kindBase baseKey) version then
      some (r, .conditionFailed baseKey, none)
    else
      match row with
      | some (.intent _) =>
        some (r, if e.op.isReplicate then .conditionFailed baseKey else .intentBlocked baseKey, none)
      | committed => do
        let (old, storedVer) ← storedItemOf items committed
        match ← evaluateKindEval items e old storedVer with
        | .conditionFailed => some (r, .conditionFailed baseKey, none)
        | .rejected code message => some (r, .rejected baseKey code message, none)
        | .superseded current => some (r, .applied, some ⟨current, current, true⟩)
        | .applied writes changeLog old new _ =>
          some (r.push (materializeDerived writes [changeLog] version 0).1, .applied, some ⟨old, new, false⟩)

/-- What the items of a batch have done so far: the images they leave, their merges and their results. -/
structure EvalBatchState where
  overlay : List (Bytes × (Option Item × Option MrecVersion))
  ordinal : Nat
  ops : List MergeOp
  results : List KindEvalItemResult

/-- The image that an item of a batch starts from: what an earlier item left, else the stored one; there is
none behind an intent. -/
def batchImage (m : MemoryEngine) (overlay : List (Bytes × (Option Item × Option MrecVersion)))
    (baseKey : Bytes) : Option (Option (Option Item × Option MrecVersion)) :=
  match overlay.lookup baseKey with
  | some cached => some (some cached)
  | none => do
    match ← readEnvelope m (physical kindBase baseKey) with
    | some (.intent _) => some none
    | committed => (storedItemOf items committed).map some

/-- One item of an evaluated batch, over the images that earlier items left. -/
def evalBatchItem (m : MemoryEngine) (version : Nat) (st : EvalBatchState) (e : KindEvalEntry Cond) :
    Option EvalBatchState := do
  let baseKey := kindEvalBaseKey items e.pk e.sk
  match ← batchImage items m st.overlay baseKey with
  | none => some { st with results := st.results ++ [.conditionFailed] }
  | some (old, storedVer) =>
    match ← evaluateKindEval items e old storedVer with
    | .conditionFailed => some { st with results := st.results ++ [.conditionFailed] }
    | .rejected code message => some { st with results := st.results ++ [.rejected code message] }
    | .superseded current => some { st with results := st.results ++ [.superseded current] }
    | .applied writes changeLog old new newVer =>
      let (ops, ordinal) := materializeDerived writes [changeLog] version st.ordinal
      some ⟨(baseKey, (new, newVer)) :: st.overlay, ordinal, st.ops ++ ops, st.results ++ [.applied old new]⟩

/-- Of the merges of one entry, the last of each key. -/
def keepLast : List MergeOp → List MergeOp
  | [] => []
  | op :: rest => if rest.any (fun other => other.key = op.key) then keepLast rest else op :: keepLast rest

def applyKindEvalBatch (entries : List (KindEvalEntry Cond)) (ts : HlcTimestamp) :
    Option (Replica × KindBatchOutcome × List KindEvalItemResult) :=
  let r := r.flushPending
  let baseKey (e : KindEvalEntry Cond) : Bytes := kindEvalBaseKey items e.pk e.sk
  match entries.find? fun e => isSealed r.sealed (baseKey e) with
  | some e => some (r, .sealed (baseKey e), [])
  | none => do
    let version ← pack ts
    if entries.any fun e => keyReachedByEntry r.engine (physical kindBase (baseKey e)) version then
      some (r, .applied, entries.map fun _ => .conditionFailed)
    else
      let st ← entries.foldlM (evalBatchItem items r.engine version) ⟨[], 0, [], []⟩
      some (r.push (keepLast st.ops), .applied, st.results)

variable (tablet : Nat) (r : Replica)

/-- The seal of the whole range and the freeze latch. -/
def Replica.latch (ts : HlcTimestamp) : Replica :=
  { r with sealed := r.sealed ++ [(.whole, ts)], frozen := true }

def sealMarker (version : Nat) (ts : HlcTimestamp) : MergeOp :=
  ⟨sealMarkerKey tablet .whole, version, some (encodeSealValue .whole ts)⟩

def splitMarker (version : Nat) (split : PendingSplit) : MergeOp :=
  ⟨splitMarkerKey tablet, version, some (encodeSplitValue split)⟩

def applyFreeze (ts : HlcTimestamp) : Option Replica :=
  if r.frozen then some r
  else (pack ts).map fun version => (r.flushPending.merge (sealMarker tablet version ts)).latch ts

/-- The seal marker is durable, and the flags are latched, before the fork's own marker is written. -/
def applySplitTablet (voters : List Text) (splitKey : Bytes) (children : SplitChild × SplitChild)
    (ts : HlcTimestamp) : Option Replica :=
  if r.frozen then some r
  else
    (pack ts).map fun version =>
      ((r.flushPending.merge (sealMarker tablet version ts)).latch ts).merge
        (splitMarker tablet version ⟨splitKey, children, voters, ts⟩)

def applyReadCeiling (ts : HlcTimestamp) : Option Replica :=
  (pack ts).map fun version =>
    ({ r with committedCeiling := max r.committedCeiling version }).flushPending.merge
      ⟨ceilingMarkerKey tablet, version, some (encodeCeilingValue ts)⟩

variable (s : TxnStage Cond)

/-- A lead byte string carries the partition token of a base key. -/
def leadsWithToken (baseKey key : Bytes) : Bool :=
  tokenBytes ≤ baseKey.length && tokenBytes ≤ key.length && key.take tokenBytes = baseKey.take tokenBytes

def kindWritesTokenValid (baseKey : Bytes) (writes : List KindWrite) : Bool :=
  tokenBytes ≤ baseKey.length && writes.all fun w => leadsWithToken baseKey w.1.2

def leadTokenValid (baseKey : Bytes) (lead : Option (Bytes × Bytes)) : Bool :=
  lead.all fun p => leadsWithToken baseKey p.1

def tokensValid (w : TxnWrite Cond) : Bool :=
  kindWritesTokenValid w.key w.kindWrites && leadTokenValid w.key w.stageMarker &&
    leadTokenValid w.key w.changeLog && w.pending.all fun p => kindEvalBaseKey items p.pk p.sk = w.key

variable (m : MemoryEngine)

/-- Some key of the stage holds a version above the entry's own, so a later entry already ran. -/
def engineAhead (version : Nat) : Option Bool := do
  let ahead (key : Bytes) : Bool := (m.latestVersionOf (physical kindBase key)).any fun v => version < v
  let ofWrites ← s.writes.anyM fun w =>
    (resolvedMarkerKey w.key).map fun marker => ahead w.key || ahead marker
  some (ofWrites || s.isAnchor && ahead s.recordKey)

def alreadyDecided : Bool :=
  s.isAnchor && (readRecordAt m (physical kindBase s.recordKey)).any fun r =>
    r.txnId = s.txnId && r.status ≠ .pending

/-- The first key that holds another transaction's intent, with that intent. -/
def blockedBy : Option (Option (Bytes × Intent)) :=
  s.writes.findSomeM? fun w =>
    (readEnvelope m (physical kindBase w.key)).map fun
      | some (.intent i) => if i.txnId ≠ s.txnId then some (w.key, i) else none
      | _ => none

/-- Some key's marker names this transaction as the one last resolved there. -/
def resurrectionAttempt : Option Bool :=
  s.writes.anyM fun w =>
    (resolvedMarkerKey w.key).map fun marker =>
      ((m.read (physical kindBase marker)).bind fun vv => decodeResolvedMarker vv.value) = some s.txnId

/-- A row meets a condition's expected value; an intent of the stage's own transaction meets any. -/
def meetsCondition (expected : Option Bytes) : Option Envelope → Bool
  | none => expected.isNone
  | some (.committed v) => some v = expected
  | some (.intent i) => i.txnId = s.txnId

/-- The first condition that does not hold. -/
def conditionFailure : Option (Option Bytes) :=
  s.conditions.findSomeM? fun c =>
    (readEnvelope m (physical kindBase c.1)).map fun row =>
      if meetsCondition s c.2 row then none else some c.1

/-- The value, derived rows and change record that an intent carries. -/
structure Payload where
  value : Option Bytes
  kindWrites : List KindWrite
  changeLog : Option (Bytes × Bytes)

def replicateInTxn : String := "an MREC replicate cannot be staged in a transaction"

/-- The payload of one write: its own, or the evaluation of its pending operation. -/
def evaluateWrite (w : TxnWrite Cond) : Option (Except StageOutcome Payload) :=
  match w.pending with
  | none => some (.ok ⟨w.value, w.kindWrites, w.changeLog⟩)
  | some p => do
    match ← readEnvelope m (physical kindBase w.key) with
    | some (.intent i) =>
      -- a foreign intent has blocked the stage before
      if i.txnId = s.txnId then some (.ok ⟨i.stagedValue, i.kindWrites, i.changeLog⟩) else none
    | committed => do
      let (old, storedVer) ← storedItemOf items committed
      if p.op.isReplicate then some (.error (.rejected w.key "ValidationException" replicateInTxn))
      else
        match ← evaluateKindEval items p old storedVer with
        | .conditionFailed => some (.error (.conditionFailed w.key))
        | .rejected code message => some (.error (.rejected w.key code message))
        | .superseded _ => some (.error (.rejected w.key "ValidationException" replicateInTxn))
        | .applied writes changeLog _ _ _ =>
          some (.ok ⟨(writes.find? fun d => d.1.1 = kindBase).bind Prod.snd,
            writes.filter fun d => d.1.1 ≠ kindBase, some changeLog⟩)

/-- The payloads of all writes, or the first failure. -/
def evaluateWrites (m : MemoryEngine) : List (TxnWrite Cond) → Option (Except StageOutcome (List Payload))
  | [] => some (.ok [])
  | w :: rest => do
    match ← evaluateWrite items s m w with
    | .error failure => some (.error failure)
    | .ok payload =>
      match ← evaluateWrites m rest with
      | .error failure => some (.error failure)
      | .ok payloads => some (.ok (payload :: payloads))

/-- The committed value a key held before the transaction's own intent there. -/
def stageIntentPrior (key : Bytes) (txnId : TxnId) : Option (Option Bytes) :=
  match m.read key with
  | none => some none
  | some vv => do
    match ← decodeEnvelope vv.value with
    | .committed v => some (some v)
    | .intent i =>
      match i.prior with
      | .known prior => if i.txnId = txnId then some prior else lookback vv.version
      | .unknown => lookback vv.version
where
  lookback (version : Nat) : Option (Option Bytes) :=
    match m.getAt key (version - 1) with
    | none => some none
    | some vv => (decodeEnvelope vv.value).map fun
      | .committed v => some v
      | .intent _ => none

/-- One intent of the stage. -/
def stageWrite (version : Nat) (r : Replica) (p : TxnWrite Cond × Payload) : Option Replica :=
  let key := physical kindBase p.1.key
  (stageIntentPrior r.engine key s.txnId).map fun prior =>
    r.merge ⟨key, version, some (encodeIntent
      ⟨s.txnId, s.recordKey, s.recordTable, p.2.value, p.2.kindWrites, p.2.changeLog, .known prior⟩ prior)⟩

/-- The intents, the queued stage markers, and on the anchor the pending record. -/
def stageAll (version : Nat) (ts : HlcTimestamp) (payloads : List Payload) (r : Replica) : Option Replica := do
  let r ← (s.writes.zip payloads).foldlM (stageWrite s version) r
  let r := r.push (materializeDerived [] (s.writes.filterMap (·.stageMarker)) version 0).1
  if s.isAnchor then
    some (r.merge ⟨physical kindBase s.recordKey, version, some (encodeRecord ⟨s.txnId, .pending, s.spans, ts⟩)⟩)
  else some r

def applyTxnStage (r : Replica) (ts : HlcTimestamp) : Option (Replica × StageOutcome) :=
  let r := r.flushPending
  let m := r.engine
  do
    let version ← pack ts
    let ahead ← engineAhead s m version
    let decided := alreadyDecided s m
    let blocked ← blockedBy s m
    let resurrection ← resurrectionAttempt s m
    let inFence := !decided && !ahead && !resurrection && blocked.isNone &&
      s.writes.all (tokensValid items) &&
      (s.writes.all fun w => !isSealed r.sealed w.key) && (!s.isAnchor || !isSealed r.sealed s.recordKey)
    if decided || ahead then some (r, .fenced)
    else
      match blocked with
      | some (key, i) => some (r, .intentBlocked key i.txnId i.recordKey i.recordTable)
      | none =>
        if !inFence then some (r, .fenced)
        else
          match ← conditionFailure s m with
          | some key => some (r, .conditionFailed key)
          | none =>
            match ← evaluateWrites items s m s.writes with
            | .error failure => some (r, failure)
            | .ok payloads => (stageAll s version ts payloads r).map fun r => (r, .staged)

def applyTxnCommit (txnId : TxnId) (recordKey : Bytes) (ts : HlcTimestamp) : Option Replica :=
  let r := r.flushPending
  match readRecordAt r.engine (physical kindBase recordKey) with
  | none => some r
  | some record =>
    if record.txnId ≠ txnId then none
    else if record.status = .pending then
      (pack ts).map fun version => r.merge ⟨physical kindBase recordKey, version,
        some (encodeRecord { record with status := .committed ts })⟩
    else some r

def applyTxnAbort (txnId : TxnId) (recordKey : Bytes) (ts : HlcTimestamp)
    (orphanCreatedTs : Option HlcTimestamp) : Option Replica :=
  let r := r.flushPending
  match readRecordAt r.engine (physical kindBase recordKey) with
  | none =>
    match orphanCreatedTs with
    | none => some r
    | some createdTs =>
      (pack ts).map fun version => r.merge ⟨physical kindBase recordKey, version,
        some (encodeRecord ⟨txnId, .aborted, [], createdTs⟩)⟩
  | some record =>
    if record.txnId ≠ txnId then none
    else if record.status = .pending then
      (pack ts).map fun version => r.merge ⟨physical kindBase recordKey, version,
        some (encodeRecord { record with status := .aborted })⟩
    else some r

/-- One entry of a settle: a decided record becomes a stub that keeps the outcome. -/
def settleOne (ts : HlcTimestamp) (r : Replica) (entry : TxnId × Bytes) : Option Replica :=
  if isSealed r.sealed entry.2 then some r
  else
    match readRecordAt r.engine (physical kindBase entry.2) with
    | none => some r
    | some record =>
      if record.txnId ≠ entry.1 then some r
      else
        match record.status with
        | .pending | .settled _ _ => some r
        | .committed commitTs => settle r record (.committed commitTs)
        | .aborted => settle r record .aborted
where
  settle (r : Replica) (record : TxnRecord) (outcome : TxnOutcome) : Option Replica :=
    (pack ts).map fun version => r.merge ⟨physical kindBase entry.2, version,
      some (encodeRecord ⟨entry.1, .settled outcome ts, [], record.createdTs⟩)⟩

def applyTxnSettle (entries : List (TxnId × Bytes)) (ts : HlcTimestamp) : Option Replica :=
  entries.foldlM (settleOne ts) r.flushPending

/-- How long a settled stub is kept, in milliseconds. -/
def txnSettledReapAge : Nat := 20 * 60 * 1000

/-- A stub old enough is deleted. -/
def reapOne (ts : HlcTimestamp) (r : Replica) (entry : TxnId × Bytes) : Option Replica :=
  if isSealed r.sealed entry.2 then some r
  else
    match readRecordAt r.engine (physical kindBase entry.2) with
    | none => some r
    | some record =>
      match record.status with
      | .settled _ settledTs =>
        if record.txnId = entry.1 ∧ txnSettledReapAge ≤ ts.wallMs - settledTs.wallMs then
          (pack ts).map fun version => r.push [⟨physical kindBase entry.2, version, none⟩]
        else some r
      | _ => some r

def applyTxnReap (entries : List (TxnId × Bytes)) (ts : HlcTimestamp) : Option Replica :=
  entries.foldlM (reapOne ts) r.flushPending

/-- The transaction's own intent at a key, with its version. -/
def ownIntent (m : MemoryEngine) (txnId : TxnId) (key : Bytes) : Option (Option (Intent × Nat)) :=
  match m.read (physical kindBase key) with
  | none => some none
  | some vv => (decodeEnvelope vv.value).map fun
    | .intent i => if i.txnId = txnId then some (i, vv.version) else none
    | .committed _ => none

/-- The anchor's own record says otherwise than the carried outcome. -/
def outcomeMismatch (record : Option TxnRecord) (txnId : TxnId) (outcome : TxnOutcome) : Bool :=
  match record with
  | none => false
  | some record => record.txnId = txnId && record.status.decidedOutcome ≠ some outcome

/-- What the key held before the intent, as an abort restores it. -/
def restoredValue (m : MemoryEngine) (key : Bytes) (i : Intent) (intentVersion : Nat) : Option Bytes :=
  match i.prior with
  | .known prior => prior.map encodeCommitted
  | .unknown => (m.getAt key (intentVersion - 1)).map (·.value)

/-- The merges that resolve one key, and the next ordinal. -/
def resolveKey (m : MemoryEngine) (txnId : TxnId) (outcome : TxnOutcome) (version : Nat)
    (acc : List MergeOp × Nat) (p : Bytes × Option (Intent × Nat)) : Option (List MergeOp × Nat) :=
  match p.2 with
  | none => some acc
  | some (i, intentVersion) => do
    let key := physical kindBase p.1
    let (ops, ordinal) : List MergeOp × Nat :=
      match outcome with
      | .committed _ =>
        let derived := materializeDerived i.kindWrites i.changeLog.toList version acc.2
        (⟨key, version, i.stagedValue.map encodeCommitted⟩ :: derived.1, derived.2)
      | .aborted => ([⟨key, version, restoredValue m key i intentVersion⟩], acc.2)
    let marker ← resolvedMarkerKey p.1
    some (acc.1 ++ ops ++ [⟨physical kindBase marker, version, some (encodeResolvedMarker txnId)⟩], ordinal)

def applyTxnResolve (r : Replica) (txnId : TxnId) (recordKey : Bytes) (keys : List Bytes)
    (outcome : TxnOutcome) (ts : HlcTimestamp) : Option (Replica × ResolveOutcome) :=
  let r := r.flushPending
  let m := r.engine
  do
    let record := readRecordAt m (physical kindBase recordKey)
    let resolved ← keys.mapM (ownIntent m txnId)
    let inFence := (keys.all fun key => !isSealed r.sealed key) &&
      resolved.all fun found => found.all fun (i, _) => i.kindWrites.all fun w => !isSealed r.sealed w.1.2
    let version ← pack ts
    if outcomeMismatch record txnId outcome then some (r, .outcomeMismatch)
    else if !inFence then some (r, .fenced)
    else
      let (ops, _) ← (keys.zip resolved).foldlM (resolveKey m txnId outcome version) ([], 0)
      some (r.push ops, .resolved)

structure LogEntry (Cond : Type) where
  command : KvCommand Cond
  voters : List Text

/-- A tablet's own number and its item layer. -/
structure Host (Cond : Type) where
  tablet : Nat
  items : ItemLayer Cond

/-- One command, on a replica whose timestamp check has passed. -/
def applyCommand (host : Host Cond) (voters : List Text) (r : Replica) :
    KvCommand Cond → Option (Replica × ApplyOutcome)
  | .put key value ts => (applyPut r key value ts).map (·, .silent)
  | .batch puts ts => (applyBatch r puts ts).map (·, .silent)
  | .kindBatch writes changeLog ts =>
    (applyKindBatch r writes changeLog ts).map fun (r, outcome) => (r, .kindBatch outcome)
  | .kindEval e ts =>
    (applyKindEval host.items r e ts).map fun (r, outcome, result) => (r, .kindEval outcome result)
  | .kindEvalBatch entries ts =>
    (applyKindEvalBatch host.items r entries ts).map fun (r, outcome, results) =>
      (r, .kindEvalBatch outcome results)
  | .seedBatch rows _ => some (applySeedBatch r rows, .silent)
  | .delete key ts => (applyDelete r key ts).map (·, .silent)
  | .cas key expected value ts => (applyCas r key expected value ts).map fun (r, swapped) => (r, .cas swapped)
  | .freeze ts => (applyFreeze host.tablet r ts).map (·, .silent)
  | .splitTablet splitKey children ts =>
    (applySplitTablet host.tablet r voters splitKey children ts).map (·, .silent)
  | .readCeiling ts => (applyReadCeiling host.tablet r ts).map (·, .silent)
  | .txnStage s ts => (applyTxnStage host.items s r ts).map fun (r, outcome) => (r, .stage outcome)
  | .txnCommit txnId recordKey ts => (applyTxnCommit r txnId recordKey ts).map (·, .silent)
  | .txnAbort txnId recordKey ts orphan => (applyTxnAbort r txnId recordKey ts orphan).map (·, .silent)
  | .txnCommitSealChecked txnId recordKey ts =>
    if isSealed r.sealed recordKey then some (r, .silent)
    else (applyTxnCommit r txnId recordKey ts).map (·, .silent)
  | .txnAbortSealChecked txnId recordKey ts orphan =>
    if isSealed r.sealed recordKey then some (r, .silent)
    else (applyTxnAbort r txnId recordKey ts orphan).map (·, .silent)
  | .txnResolve txnId recordKey keys outcome ts =>
    (applyTxnResolve r txnId recordKey keys outcome ts).map fun (r, outcome) => (r, .resolve outcome)
  | .txnSettle entries ts => (applyTxnSettle r entries ts).map (·, .silent)
  | .txnReap entries ts => (applyTxnReap r entries ts).map (·, .silent)
  | .noOp => some (r, .silent)

/-- Timestamps must exceed every one applied so far; a command without one is exempt. -/
def assertTsMonotonic (r : Replica) (ts : Option HlcTimestamp) : Option Replica :=
  match ts with
  | none => some r
  | some ts =>
    if r.maxAppliedTs.all fun prev =>
      decide (prev < ts) then some { r with maxAppliedTs := some ts } else none

def applyEntry (host : Host Cond) (r : Replica) (entry : LogEntry Cond) :
    Option (Replica × ApplyOutcome) := do
  let r ← assertTsMonotonic r (commandTs entry.command)
  applyCommand host entry.voters r entry.command

def applyLog (host : Host Cond) (r : Replica) (log : List (LogEntry Cond)) : Option Replica :=
  log.foldlM (fun r entry => (applyEntry host r entry).map Prod.fst) r

/-- The log applied entry by entry, with what each entry reports. -/
def applyReporting (host : Host Cond) (r : Replica) :
    List (LogEntry Cond) → Option (Replica × List ApplyOutcome)
  | [] => some (r, [])
  | entry :: log => do
    let (r, out) ← applyEntry host r entry
    let (r, outs) ← applyReporting host r log
    some (r, out :: outs)

/-- The sealed ranges that the engine's markers name. -/
def sealedFrom (tablet : Nat) (m : MemoryEngine) : List (KeyRange × HlcTimestamp) :=
  let keys := m.data.keys.filter fun k => (markerKey "cp_seal" tablet).isPrefixOf k
  keys.filterMap fun k => (m.read k).bind fun vv => decodeSealValue vv.value

def ceilingFrom (tablet : Nat) (m : MemoryEngine) : Nat :=
  (((m.read (ceilingMarkerKey tablet)).bind fun vv => decodeCeilingValue vv.value).bind pack).getD 0

/-- A replica started over an engine: its flags come from the engine's own markers. -/
def Replica.start (tablet : Nat) (m : MemoryEngine) : Replica where
  base := m
  journal := []
  pending := []
  sealed := sealedFrom tablet m
  frozen := (sealedFrom tablet m).any fun s => s.1.start = [] ∧ s.1.stop = none
  committedCeiling := ceilingFrom tablet m
  maxAppliedTs := none

/-- The fork that the replica's own marker announces. -/
def Replica.pendingSplit (tablet : Nat) (r : Replica) : Option PendingSplit :=
  (r.engine.read (splitMarkerKey tablet)).bind fun vv => decodeSplitValue vv.value

/-- An item layer that stores no items, for logs of plain rows and staged values. -/
def plainItems : ItemLayer Unit where
  stored := ⟨fun _ => [], fun _ => none⟩
  changeRecord _ := []
  evaluate _ _ := .ok true
  partitionToken _ := List.replicate tokenBytes 0
  length_partitionToken _ := rfl

def plainHost : Host Unit := ⟨1, plainItems⟩

/-- A replica over an empty engine. -/
def freshReplica : Replica := .start 1 .empty

def sampleKey : Bytes := List.replicate tokenBytes 0 ++ [0x61]

def sampleStage (txnId : TxnId) (value : Bytes) : TxnStage Unit where
  txnId := txnId
  recordKey := []
  recordTable := []
  isAnchor := false
  writes := [⟨sampleKey, some value, [], none, none, none⟩]
  spans := []
  conditions := []

def sampleTxn (wallMs : Nat) : TxnId := ⟨⟨wallMs, 0⟩, ['n']⟩

/-- A log of commands under an unchanged configuration. -/
def sampleLog (commands : List (KvCommand Unit)) : List (LogEntry Unit) := commands.map (⟨·, []⟩)

end AnimusDb.Tablet
