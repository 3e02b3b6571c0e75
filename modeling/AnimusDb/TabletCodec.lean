import AnimusDb.ItemShape
import AnimusDb.LsmWalDecode
import AnimusDb.TabletKeys

/-! The values a tablet keeps in its engine: the envelope around every row value, transaction records,
resolved markers, and the markers of seals, forks and read ceilings. Each decoder takes back what its
encoder wrote. -/

open AnimusDb.Items (KindWrite escape fromUtf8 fromUtf8_utf8 utf8)
open RustText (Text)
open AnimusDb.Lsm (putList putOptBytes readList readOptBytes readU8 reads_list reads_optBytes reads_tag)
open ByteCodec List Option

namespace AnimusDb.Tablet

inductive TxnOutcome where
  | committed (commitTs : HlcTimestamp)
  | aborted
deriving DecidableEq

/-- The state of a transaction, as its record keeps it. -/
inductive TxnStatus where
  | pending
  | committed (commitTs : HlcTimestamp)
  | aborted
  | settled (outcome : TxnOutcome) (settledTs : HlcTimestamp)
deriving DecidableEq

def TxnStatus.decidedOutcome : TxnStatus → Option TxnOutcome
  | .pending => none
  | .committed commitTs => some (.committed commitTs)
  | .aborted => some .aborted
  | .settled outcome _ => some outcome

/-- The record of a transaction, with the ranges it has intents in. -/
structure TxnRecord where
  txnId : TxnId
  status : TxnStatus
  intentSpans : List (Text × KeyRange)
  createdTs : HlcTimestamp
deriving DecidableEq

/-- What an intent knows about the committed value it shadows. -/
inductive IntentPrior where
  | known (value : Option Bytes)
  | unknown
deriving DecidableEq

/-- A provisional write staged by a transaction. -/
structure Intent where
  txnId : TxnId
  recordKey : Bytes
  recordTable : Text
  stagedValue : Option Bytes
  kindWrites : List KindWrite
  changeLog : Option (Bytes × Bytes)
  prior : IntentPrior
deriving DecidableEq

/-- A row value: committed, or staged by a transaction. -/
inductive Envelope where
  | committed (value : Bytes)
  | intent (i : Intent)
deriving DecidableEq

structure SplitChild where
  id : Nat
  replicas : List Text
deriving DecidableEq

/-- The parameters of a fork, as its marker keeps them. -/
structure PendingSplit where
  splitKey : Bytes
  children : SplitChild × SplitChild
  bootstrapVoters : List Text
  ts : HlcTimestamp
deriving DecidableEq

def putTs (ts : HlcTimestamp) : Bytes := be 8 ts.wallMs ++ be 4 ts.logical

def putText (s : Text) : Bytes := putPrefixed (utf8 s)

def putKeyRange (r : KeyRange) : Bytes := putPrefixed r.start ++ putOptBytes r.stop

def putTableSpan (span : Text × KeyRange) : Bytes := putText span.1 ++ putKeyRange span.2

/-- One derived write: kind, key, and a value or a delete. -/
def putKindWrite (w : KindWrite) : Bytes := w.1.1 :: (putPrefixed w.1.2 ++ putOptBytes w.2)

def putChangeLog : Option (Bytes × Bytes) → Bytes
  | none => [0]
  | some (lead, record) => 1 :: (putPrefixed lead ++ putPrefixed record)

def tagCommitted : UInt8 := 0

def tagIntentV1 : UInt8 := 1

def tagIntent : UInt8 := 2

def encodeCommitted (value : Bytes) : Bytes := tagCommitted :: value

/-- The body that every version of an intent shares. -/
def putIntentV1Body (i : Intent) : Bytes :=
  putTxnId i.txnId ++ (putPrefixed i.recordKey ++ (putText i.recordTable ++
    (putOptBytes i.stagedValue ++ (putList putKindWrite i.kindWrites ++ putChangeLog i.changeLog))))

/-- An intent at the current version, which carries the value it shadows. -/
def encodeIntent (i : Intent) (prior : Option Bytes) : Bytes :=
  tagIntent :: (putIntentV1Body i ++ putOptBytes prior)

def encodeIntentV1 (i : Intent) : Bytes := tagIntentV1 :: putIntentV1Body i

/-- A settled record keeps the outcome behind a tag of its own. -/
def putStatus : TxnStatus → Bytes
  | .pending => [0]
  | .committed commitTs => 1 :: putTs commitTs
  | .aborted => [2]
  | .settled (.committed commitTs) settledTs => 3 :: (putTs commitTs ++ putTs settledTs)
  | .settled .aborted settledTs => 4 :: putTs settledTs

/-- The value of a transaction record. -/
def encodeRecord (r : TxnRecord) : Bytes :=
  putTxnId r.txnId ++ (putStatus r.status ++ (putList putTableSpan r.intentSpans ++ putTs r.createdTs))

def resolvedMarkerV1 : UInt8 := 0xA1

/-- The marker that a resolve leaves at its key. -/
def encodeResolvedMarker (id : TxnId) : Bytes := resolvedMarkerV1 :: putTxnId id

/-- The value of a seal's marker. -/
def encodeSealValue (range : KeyRange) (ts : HlcTimestamp) : Bytes :=
  putPrefixed range.start ++ (putOptBytes range.stop ++ putTs ts)

def putNodeList (nodes : List Text) : Bytes := putList putText nodes

def putSplitChild (child : SplitChild) : Bytes := be 8 child.id ++ putNodeList child.replicas

/-- The value of a fork's marker. -/
def encodeSplitValue (split : PendingSplit) : Bytes :=
  putPrefixed split.splitKey ++ (putSplitChild split.children.1 ++ (putSplitChild split.children.2 ++
    (putNodeList split.bootstrapVoters ++ putTs split.ts)))

def encodeCeilingValue (ts : HlcTimestamp) : Bytes := putTs ts

def readTs : Reader HlcTimestamp :=
  andThen (number 8) fun wall => andThen (number 4) fun logical => result ⟨wall, logical⟩

/-- A text behind its length; bytes that are not UTF-8 are refused. -/
def readText : Reader Text := andThen prefixed fun bytes input => (fromUtf8 bytes).map fun s => (s, input)

def readTxnId : Reader TxnId :=
  andThen readTs fun ts => andThen readText fun node => result ⟨ts, node⟩

def readKeyRange : Reader KeyRange :=
  andThen prefixed fun start => andThen readOptBytes fun stop => result ⟨start, stop⟩

def readTableSpan : Reader (Text × KeyRange) :=
  andThen readText fun table => andThen readKeyRange fun range => result (table, range)

def readKindWrite : Reader KindWrite :=
  andThen readU8 fun kind => andThen prefixed fun key => andThen readOptBytes fun value =>
    result ((UInt8.ofNat kind, key), value)

/-- A flag other than 0 and 1 is refused. -/
def readChangeLog : Reader (Option (Bytes × Bytes)) :=
  andThen readU8 fun
    | 0 => result none
    | 1 => andThen prefixed fun lead => andThen prefixed fun record => result (some (lead, record))
    | _ => fun _ => none

/-- The fields of a version-1 intent, whose prior is unknown. -/
def readIntentV1Body : Reader Intent :=
  andThen readTxnId fun txnId => andThen prefixed fun recordKey => andThen readText fun recordTable =>
    andThen readOptBytes fun stagedValue => andThen (readList readKindWrite) fun kindWrites =>
      andThen readChangeLog fun changeLog =>
        result ⟨txnId, recordKey, recordTable, stagedValue, kindWrites, changeLog, .unknown⟩

/-- The envelope of a row value; `none` where the code panics. -/
def decodeEnvelope : Bytes → Option Envelope
  | [] => none
  | tag :: body =>
    if tag = tagCommitted then some (.committed body)
    else if tag = tagIntentV1 then (readIntentV1Body body).map fun (i, _) => .intent i
    else if tag = tagIntent then
      (andThen readIntentV1Body fun i => andThen readOptBytes fun prior =>
        result { i with prior := .known prior }) body |>.map fun (i, _) => .intent i
    else none

def readStatus : Reader TxnStatus :=
  andThen readU8 fun
    | 0 => result .pending
    | 1 => andThen readTs fun commitTs => result (.committed commitTs)
    | 2 => result .aborted
    | 3 => andThen readTs fun commitTs => andThen readTs fun settledTs =>
      result (.settled (.committed commitTs) settledTs)
    | 4 => andThen readTs fun settledTs => result (.settled .aborted settledTs)
    | _ => fun _ => none

def readRecord : Reader TxnRecord :=
  andThen readTxnId fun txnId => andThen readStatus fun status =>
    andThen (readList readTableSpan) fun intentSpans => andThen readTs fun createdTs =>
      result ⟨txnId, status, intentSpans, createdTs⟩

def decodeRecord (bytes : Bytes) : Option TxnRecord := (readRecord bytes).map Prod.fst

/-- Bytes left over are refused. -/
def decodeResolvedMarker : Bytes → Option TxnId
  | [] => none
  | version :: body =>
    if version = resolvedMarkerV1 then
      match readTxnId body with
      | some (id, []) => some id
      | _ => none
    else none

/-- Every flag but 1 stands for an open end. -/
def readSealValue : Reader (KeyRange × HlcTimestamp) :=
  andThen prefixed fun start => andThen readU8 fun hasEnd =>
    andThen (if hasEnd = 1 then andThen prefixed fun e => result (some e) else result none) fun stop =>
      andThen readTs fun ts => result (⟨start, stop⟩, ts)

def decodeSealValue (bytes : Bytes) : Option (KeyRange × HlcTimestamp) := (readSealValue bytes).map Prod.fst

def readNodeList : Reader (List Text) := readList readText

def readSplitChild : Reader SplitChild :=
  andThen (number 8) fun id => andThen readNodeList fun replicas => result ⟨id, replicas⟩

/-- The voters come back as a set. -/
def readSplitValue : Reader PendingSplit :=
  andThen prefixed fun splitKey => andThen readSplitChild fun left => andThen readSplitChild fun right =>
    andThen readNodeList fun voters => andThen readTs fun ts =>
      result ⟨splitKey, (left, right), Items.dedupSorted voters, ts⟩

def decodeSplitValue (bytes : Bytes) : Option PendingSplit := (readSplitValue bytes).map Prod.fst

/-- Only a value of the exact length is read. -/
def decodeCeilingValue (bytes : Bytes) : Option HlcTimestamp :=
  if bytes.length = 12 then (readTs bytes).map Prod.fst else none

/-- The fields of a timestamp have the width of their types. -/
structure HlcTimestamp.Fits (ts : HlcTimestamp) : Prop where
  wall : ts.wallMs < 256 ^ 8
  logical : ts.logical < 256 ^ 4

/-- A length that its four bytes can hold. -/
def Short {α : Type} (items : List α) : Prop := items.length < 256 ^ 4

def ShortText (s : Text) : Prop := Short (utf8 s)

def ShortOpt (v : Option Bytes) : Prop := ∀ b, v = some b → Short b

/-- The bounds fit their length fields. -/
structure KeyRange.Fits (r : KeyRange) : Prop where
  start : Short r.start
  stop : ShortOpt r.stop

structure KindWriteFits (w : KindWrite) : Prop where
  key : Short w.1.2
  value : ShortOpt w.2

def ChangeLogFits (c : Option (Bytes × Bytes)) : Prop := ∀ p, c = some p → Short p.1 ∧ Short p.2

/-- The parts of an intent fit their lengths. -/
structure Intent.Fits (i : Intent) : Prop where
  txnId : i.txnId.Fits
  recordKey : Short i.recordKey
  recordTable : ShortText i.recordTable
  stagedValue : ShortOpt i.stagedValue
  kindWrites : Short i.kindWrites
  eachWrite : ∀ w ∈ i.kindWrites, KindWriteFits w
  changeLog : ChangeLogFits i.changeLog

def TxnOutcome.Fits : TxnOutcome → Prop
  | .committed commitTs => commitTs.Fits
  | .aborted => True

def TxnStatus.Fits : TxnStatus → Prop
  | .pending => True
  | .committed commitTs => commitTs.Fits
  | .aborted => True
  | .settled outcome settledTs => outcome.Fits ∧ settledTs.Fits

/-- The parts of a record fit their fields. -/
structure TxnRecord.Fits (r : TxnRecord) : Prop where
  txnId : r.txnId.Fits
  status : r.status.Fits
  intentSpans : Short r.intentSpans
  eachSpan : ∀ span ∈ r.intentSpans, ShortText span.1 ∧ span.2.Fits
  createdTs : r.createdTs.Fits

structure NodeListFits (nodes : List Text) : Prop where
  count : Short nodes
  each : ∀ s ∈ nodes, ShortText s

structure SplitChild.Fits (child : SplitChild) : Prop where
  id : child.id < 256 ^ 8
  replicas : NodeListFits child.replicas

/-- The parts of a fork fit their fields, and its voters are in order, each once. -/
structure PendingSplit.Fits (split : PendingSplit) : Prop where
  splitKey : Short split.splitKey
  left : split.children.1.Fits
  right : split.children.2.Fits
  voters : NodeListFits split.bootstrapVoters
  ascending : Items.dedupSorted split.bootstrapVoters = split.bootstrapVoters
  ts : split.ts.Fits

variable {ts : HlcTimestamp} {s : Text} {id : TxnId}

/-- Each reader below takes back what its writer has put in front of any rest. -/
theorem reads_ts (h : ts.Fits) : Reads readTs ts (putTs ts) :=
  (reads_number h.wall).andThen (reads_number h.logical).then_result

theorem reads_text (h : ShortText s) : Reads readText s (putText s) := by
  intro rest
  unfold readText andThen putText
  rw [reads_prefixed h rest, bind_some]
  dsimp only
  rw [fromUtf8_utf8, map_some]

theorem TxnId.Fits.timestamp (h : id.Fits) : id.ts.Fits := ⟨h.wall, h.logical⟩

theorem reads_txnId (h : id.Fits) : Reads readTxnId id (putTxnId id) := by
  have hlayout : putTxnId id = putTs id.ts ++ putText id.node := by
    simp only [putTxnId, putTs, putText, append_assoc]
  rw [hlayout]
  exact (reads_ts h.timestamp).andThen (reads_text h.node).then_result

theorem reads_keyRange {r : KeyRange} (h : r.Fits) : Reads readKeyRange r (putKeyRange r) :=
  (reads_prefixed h.start).andThen (reads_optBytes h.stop).then_result

theorem reads_kindWrite {w : KindWrite} (h : KindWriteFits w) : Reads readKindWrite w (putKindWrite w) := by
  obtain ⟨⟨kind, key⟩, value⟩ := w
  refine reads_tag ?_
  have hvalue : Reads (andThen readOptBytes fun value =>
      result ((UInt8.ofNat kind.toNat, key), value)) ((UInt8.ofNat kind.toNat, key), value)
        (putOptBytes value) := (reads_optBytes h.value).then_result
  rw [UInt8.ofNat_toNat] at hvalue
  exact (reads_prefixed h.key).andThen (by rw [UInt8.ofNat_toNat]; exact hvalue)

theorem reads_changeLog {c : Option (Bytes × Bytes)} (h : ChangeLogFits c) :
    Reads readChangeLog c (putChangeLog c) := by
  match c with
  | none => exact reads_tag (reads_result none)
  | some (lead, record) =>
    have hparts := h _ rfl
    exact reads_tag ((reads_prefixed hparts.1).andThen (reads_prefixed hparts.2).then_result)

theorem reads_intentV1Body {i : Intent} (h : i.Fits) :
    Reads readIntentV1Body { i with prior := .unknown } (putIntentV1Body i) :=
  (reads_txnId h.txnId).andThen <| (reads_prefixed h.recordKey).andThen <|
    (reads_text h.recordTable).andThen <| (reads_optBytes h.stagedValue).andThen <|
      (reads_list h.kindWrites fun w hw => reads_kindWrite (h.eachWrite w hw)).andThen <|
        (reads_changeLog h.changeLog).then_result

/-- A staged intent comes back with the value it shadows. -/
theorem decodeEnvelope_intent {i : Intent} {prior : Option Bytes} (h : i.Fits) (hprior : ShortOpt prior) :
    decodeEnvelope (encodeIntent i prior) = some (.intent { i with prior := .known prior }) := by
  have hread : Reads (andThen readIntentV1Body fun i => andThen readOptBytes fun prior =>
      result { i with prior := .known prior }) { i with prior := .known prior }
        (putIntentV1Body i ++ putOptBytes prior) :=
    (reads_intentV1Body h).andThen (reads_optBytes hprior).then_result
  rw [encodeIntent, decodeEnvelope, if_neg (by decide), if_neg (by decide), if_pos rfl, hread.whole, map_some]

theorem reads_status {status : TxnStatus} (h : status.Fits) : Reads readStatus status (putStatus status) := by
  match status with
  | .pending => exact reads_tag (reads_result _)
  | .committed commitTs => exact reads_tag (reads_ts h).then_result
  | .aborted => exact reads_tag (reads_result _)
  | .settled (.committed commitTs) settledTs =>
    exact reads_tag ((reads_ts h.1).andThen (reads_ts h.2).then_result)
  | .settled .aborted settledTs => exact reads_tag (reads_ts h.2).then_result

theorem decodeRecord_encodeRecord {r : TxnRecord} (h : r.Fits) : decodeRecord (encodeRecord r) = some r := by
  have hread : Reads readRecord r (encodeRecord r) :=
    (reads_txnId h.txnId).andThen <| (reads_status h.status).andThen <|
      (reads_list h.intentSpans fun span hspan => (reads_text (h.eachSpan span hspan).1).andThen
        (reads_keyRange (h.eachSpan span hspan).2).then_result).andThen <|
          (reads_ts h.createdTs).then_result
  rw [decodeRecord, hread.whole, map_some]

theorem decodeResolvedMarker_encodeResolvedMarker (h : id.Fits) :
    decodeResolvedMarker (encodeResolvedMarker id) = some id := by
  rw [encodeResolvedMarker, decodeResolvedMarker, if_pos rfl, (reads_txnId h).whole]

theorem decodeSealValue_encodeSealValue {range : KeyRange} (h : range.Fits) (hts : ts.Fits) :
    decodeSealValue (encodeSealValue range ts) = some (range, ts) := by
  have hread : Reads readSealValue (range, ts) (encodeSealValue range ts) := by
    obtain ⟨start, stop⟩ := range
    refine (reads_prefixed h.start).andThen ?_
    cases stop with
    | none => exact reads_tag ((reads_result none).andThen (reads_ts hts).then_result)
    | some e =>
      exact reads_tag (((reads_prefixed (h.stop e rfl)).then_result).andThen (reads_ts hts).then_result)
  rw [decodeSealValue, hread.whole, map_some]

theorem reads_nodeList {nodes : List Text} (h : NodeListFits nodes) :
    Reads readNodeList nodes (putNodeList nodes) := reads_list h.count fun s hs => reads_text (h.each s hs)

theorem reads_splitChild {child : SplitChild} (h : child.Fits) :
    Reads readSplitChild child (putSplitChild child) :=
  (reads_number h.id).andThen (reads_nodeList h.replicas).then_result

theorem decodeSplitValue_encodeSplitValue {split : PendingSplit} (h : split.Fits) :
    decodeSplitValue (encodeSplitValue split) = some split := by
  have hread : Reads readSplitValue
      { split with bootstrapVoters := Items.dedupSorted split.bootstrapVoters } (encodeSplitValue split) :=
    (reads_prefixed h.splitKey).andThen <| (reads_splitChild h.left).andThen <|
      (reads_splitChild h.right).andThen <| (reads_nodeList h.voters).andThen (reads_ts h.ts).then_result
  rw [decodeSplitValue, hread.whole, map_some, h.ascending]

/-- What is read has the widths of its types. -/
theorem yields_ts : Yields readTs HlcTimestamp.Fits :=
  (yields_number 8).andThen fun _ hwall => (yields_number 4).andThen fun _ hlogical =>
    yields_result ⟨hwall, hlogical⟩

theorem yields_status : Yields readStatus TxnStatus.Fits := by
  refine (yields_true readU8).andThen fun tag _ => ?_
  split
  · exact yields_result trivial
  · exact yields_ts.andThen fun _ h => yields_result h
  · exact yields_result trivial
  · exact yields_ts.andThen fun _ h => yields_ts.andThen fun _ h' => yields_result ⟨h, h'⟩
  · exact yields_ts.andThen fun _ h => yields_result ⟨trivial, h⟩
  · exact fun _ _ _ h => nomatch h

/-- The timestamps of a decoded record have their widths. -/
theorem decodeRecord_fits {bytes : Bytes} {r : TxnRecord} (h : decodeRecord bytes = some r) :
    r.status.Fits ∧ r.createdTs.Fits := by
  have hyields : Yields readRecord fun r => r.status.Fits ∧ r.createdTs.Fits :=
    (yields_true readTxnId).andThen fun _ _ => yields_status.andThen fun _ hstatus =>
      (yields_true (readList readTableSpan)).andThen fun _ _ => yields_ts.andThen fun _ hts =>
        yields_result ⟨hstatus, hts⟩
  obtain ⟨⟨r', rest⟩, hread, rfl⟩ := map_eq_some_iff.mp h
  exact hyields _ _ _ hread

/-- The engine-global namespace that no table may use. -/
def reservedNamespace : Bytes := utf8 "__animus_system".toList

/-- The key of a tablet's marker under a tag. -/
def markerKey (tag : String) (tablet : Nat) : Bytes :=
  escape reservedNamespace ++ (escape (utf8 tag.toList) ++ be 8 tablet)

/-- A seal has one marker for each range. -/
def sealMarkerKey (tablet : Nat) (range : KeyRange) : Bytes :=
  markerKey "cp_seal" tablet ++ putKeyRange range

def splitMarkerKey (tablet : Nat) : Bytes := markerKey "cp_split" tablet

def ceilingMarkerKey (tablet : Nat) : Bytes := markerKey "cp_ceiling" tablet

end AnimusDb.Tablet
