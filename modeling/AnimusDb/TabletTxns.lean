import AnimusDb.TabletEffects

/-! Transactions on one tablet, over every log: a decided record keeps its decision, a key that a transaction
resolved does not take its stage again, and a staged intent stays where it is. -/

open AnimusDb.Items Option List
open AnimusDb.Lsm (MemoryEngine MergeOp)
open AnimusDb.Lsm.MemoryEngine (Trace)
open ByteCodec (Bytes)
open RustText (Text)

namespace AnimusDb.Tablet

open Lsm.MemoryEngine

variable {key : Bytes} {Cond : Type} {host : Host Cond} {op : MergeOp}

variable {m cur : MemoryEngine} {cmd : KvCommand Cond}

/-- The command carries an ordinary row for a base key, which it writes whatever the key holds. -/
inductive WritesRow (m : MemoryEngine) : KvCommand Cond → Bytes → Prop
  | put {key : Bytes} {value ts} : WritesRow m (.put key value ts) key
  | batch {puts ts p} (hmem : p ∈ puts) : WritesRow m (.batch puts ts) p.1
  | kindBatch {writes changeLog ts w} {key : Bytes} (hmem : w ∈ writes) (hkey : w.1 = (kindBase, key)) :
      WritesRow m (.kindBatch writes changeLog ts) key
  | seed {rows ts row} (hmem : row ∈ rows) (hkind : row.kind = kindBase) :
      WritesRow m (.seedBatch rows ts) row.key
  | delete {key : Bytes} {ts} : WritesRow m (.delete key ts) key
  | derived {txnId recordKey keys commitTs ts base i intentVersion w} {key : Bytes}
      (hown : Resolves m txnId recordKey keys (.committed commitTs) base i intentVersion)
      (hmem : w ∈ i.kindWrites) (hkey : w.1 = (kindBase, key)) :
      WritesRow m (.txnResolve txnId recordKey keys (.committed commitTs) ts) key

/-- The command names a base key as a row that it reads first. -/
inductive NamesRow : KvCommand Cond → Bytes → Prop
  | cas {key : Bytes} {expected value ts} : NamesRow (.cas key expected value ts) key
  | stage {s ts w} (hmem : w ∈ s.writes) : NamesRow (.txnStage s ts) w.key
  | resolve {txnId recordKey keys outcome ts} {key : Bytes} (hmem : key ∈ keys) :
      NamesRow (.txnResolve txnId recordKey keys outcome ts) key

/-- The command names the record of a transaction that it may write. -/
inductive NamesRecord : KvCommand Cond → TxnId → Bytes → Prop
  | stage {s ts} (hanchor : s.isAnchor = true) : NamesRecord (.txnStage s ts) s.txnId s.recordKey
  | decision {txnId recordKey ts status} {cmd : KvCommand Cond}
      (hcmd : decides cmd = some (txnId, recordKey, ts, status)) : NamesRecord cmd txnId recordKey
  | settle {entries ts txnId recordKey} (hmem : (txnId, recordKey) ∈ entries) :
      NamesRecord (.txnSettle entries ts) txnId recordKey
  | reap {entries ts txnId recordKey} (hmem : (txnId, recordKey) ∈ entries) :
      NamesRecord (.txnReap entries ts) txnId recordKey

/-- A command whose keys are what they are named as: rows have no internal key, and a record's key derives
from its transaction. -/
structure WellNamed (cmd : KvCommand Cond) : Prop where
  row : ∀ key, NamesRow cmd key → isInternalKey key = false
  record : ∀ txnId key, NamesRecord cmd txnId key → txnId.Fits ∧ ∃ token, recordKey token txnId = some key

/-- A merge at a base key that only looks at the rows of the tablet. -/
inductive RowWrite (host : Host Cond) (m : MemoryEngine) :
    KvCommand Cond → MemoryEngine → Bytes → MergeOp → Prop
  | free {cmd : KvCommand Cond} {cur : MemoryEngine} {key : Bytes} {op : MergeOp}
      (hnamed : NamesRow cmd key ∨ ∃ pk sk, key = kindEvalBaseKey host.items pk sk)
      (hfree : ∀ i, ¬ HoldsIntent m (physical kindBase key) i) : RowWrite host m cmd cur key op
  | intent {s ts version w payload prior} {cur : MemoryEngine} (hstage : Accepted s m version)
      (hmem : w ∈ s.writes) (hpayload : evaluateWrite host.items s m w = some (.ok payload))
      (hprior : stageIntentPrior cur (physical kindBase w.key) s.txnId = some prior) :
      RowWrite host m (.txnStage s ts) cur w.key
        ⟨physical kindBase w.key, version, some (encodeIntent (s.intent payload prior) prior)⟩
  | resolved {txnId recordKey keys outcome ts i intentVersion} {cur : MemoryEngine} {key : Bytes}
      {op : MergeOp} (hown : Resolves m txnId recordKey keys outcome key i intentVersion) :
      RowWrite host m (.txnResolve txnId recordKey keys outcome ts) cur key op

theorem RowWrite.named (h : RowWrite host m cmd cur key op) :
    NamesRow cmd key ∨ ∃ pk sk, key = kindEvalBaseKey host.items pk sk := by
  cases h with
  | free hnamed => exact hnamed
  | intent _ hmem => exact .inl (.stage hmem)
  | resolved hown => exact .inl (.resolve hown.named)

/-- A merge at a transaction's record. -/
inductive RecordWrite (m : MemoryEngine) : KvCommand Cond → MemoryEngine → Bytes → MergeOp → Prop
  | pending {s ts version} {cur : MemoryEngine} {op : MergeOp} (hstage : Accepted s m version)
      (hanchor : s.isAnchor = true) : RecordWrite m (.txnStage s ts) cur s.recordKey op
  | decision {txnId recordKey ts status record} {cmd : KvCommand Cond} {cur : MemoryEngine} {op : MergeOp}
      (hcmd : decides cmd = some (txnId, recordKey, ts, status))
      (hrecord : readRecordAt m (physical kindBase recordKey) = some record) (hown : record.txnId = txnId)
      (hpending : record.status = .pending) : RecordWrite m cmd cur recordKey op
  | orphan {txnId recordKey ts status} {cmd : KvCommand Cond} {cur : MemoryEngine} {op : MergeOp}
      (hcmd : decides cmd = some (txnId, recordKey, ts, status))
      (hrecord : readRecordAt m (physical kindBase recordKey) = none) : RecordWrite m cmd cur recordKey op
  | settle {entries ts version txnId recordKey record outcome} {cur : MemoryEngine}
      (hversion : pack ts = some version) (hmem : (txnId, recordKey) ∈ entries)
      (hrecord : readRecordAt cur (physical kindBase recordKey) = some record) (hown : record.txnId = txnId)
      (hdecided : record.status.decidedOutcome = some outcome) :
      RecordWrite m (.txnSettle entries ts) cur recordKey ⟨physical kindBase recordKey, version,
        some (encodeRecord ⟨txnId, .settled outcome ts, [], record.createdTs⟩)⟩
  | reap {entries ts version txnId recordKey record} {cur : MemoryEngine} (hmem : (txnId, recordKey) ∈ entries)
      (hrecord : readRecordAt m (physical kindBase recordKey) = some record) (hown : record.txnId = txnId) :
      RecordWrite m (.txnReap entries ts) cur recordKey ⟨physical kindBase recordKey, version, none⟩

theorem RecordWrite.named (h : RecordWrite m cmd cur key op) : ∃ txnId, NamesRecord cmd txnId key := by
  cases h with
  | pending _ hanchor => exact ⟨_, .stage hanchor⟩
  | decision hcmd | orphan hcmd => exact ⟨_, .decision hcmd⟩
  | settle _ hmem => exact ⟨_, .settle hmem⟩
  | reap hmem => exact ⟨_, .reap hmem⟩

/-- A merge of a resolved marker. -/
inductive MarkerWrite (m : MemoryEngine) : KvCommand Cond → Bytes → MergeOp → Prop
  | mk {txnId recordKey keys outcome ts version i intentVersion marker} {key : Bytes}
      (hown : Resolves m txnId recordKey keys outcome key i intentVersion)
      (hmarker : resolvedMarkerKey key = some marker) :
      MarkerWrite m (.txnResolve txnId recordKey keys outcome ts) marker
        ⟨physical kindBase marker, version, some (encodeResolvedMarker txnId)⟩

theorem MarkerWrite.marks (h : MarkerWrite m cmd key op) : ∃ base, resolvedMarkerKey base = some key := by
  cases h with
  | mk _ hmarker => exact ⟨_, hmarker⟩

/-- Markers of the tablet itself lead with another byte than any kind of row. -/
theorem markerKey_ne_physical (tag : String) (tablet : Nat) (rest key : Bytes) :
    markerKey tag tablet ++ rest ≠ physical kindBase key := by
  obtain ⟨tail, htail⟩ : ∃ tail, escape reservedNamespace = 0x5F :: tail := ⟨_, rfl⟩
  intro h
  rw [markerKey, htail] at h
  exact absurd (cons.inj h).1 (by decide)

theorem Writes.base_cases (h : Writes host m cmd cur op) (hkey : op.key = physical kindBase key) :
    WritesRow m cmd key ∨ RowWrite host m cmd cur key op ∨ RecordWrite m cmd cur key op ∨
    MarkerWrite m cmd key op := by
  cases h with
  | put => cases hkey; exact .inl .put
  | batch _ hmem => cases hkey; exact .inl (.batch hmem)
  | kindBatch _ hop =>
    obtain ⟨w, hmem, hw⟩ := hop.base hkey
    exact .inl (.kindBatch hmem hw)
  | kindEval _ hfree hbase hop | kindEvalBatch _ _ hfree hbase hop =>
    obtain ⟨w, hmem, hw⟩ := hop.base hkey
    obtain rfl : key = _ := (congrArg Prod.snd hw).symm.trans (hbase w hmem (congrArg Prod.fst hw))
    exact .inr (.inl (.free (.inr ⟨_, _, rfl⟩) hfree))
  | seed hmem _ =>
    obtain ⟨hkind, rfl⟩ := cons.inj hkey
    exact .inl (.seed hmem hkind)
  | delete => cases hkey; exact .inl .delete
  | cas _ hfree =>
    cases hkey
    exact .inr (.inl (.free (.inl .cas) hfree))
  | freeze | forkSeal => exact absurd hkey (markerKey_ne_physical _ _ _ _)
  | fork | ceiling => exact absurd ((append_nil _).trans hkey) (markerKey_ne_physical _ _ _ _)
  | stageIntent _ hstage hmem hpayload hprior =>
    cases hkey
    exact .inr (.inl (.intent hstage hmem hpayload hprior))
  | stageMarker => exact absurd (cons.inj hkey).1 (by decide)
  | stageRecord _ hstage hanchor =>
    cases hkey
    exact .inr (.inr (.inl (.pending hstage hanchor)))
  | decision hcmd _ hrecord hown hpending =>
    cases hkey
    exact .inr (.inr (.inl (.decision hcmd hrecord hown hpending)))
  | orphan hcmd _ hrecord =>
    cases hkey
    exact .inr (.inr (.inl (.orphan hcmd hrecord)))
  | resolveRow _ hown =>
    cases hkey
    exact .inr (.inl (.resolved hown))
  | resolveDerived _ hown hop =>
    obtain ⟨w, hmem, hw⟩ := hop.base hkey
    exact .inl (.derived hown hmem hw)
  | resolveMarker _ hown hmarker =>
    cases hkey
    exact .inr (.inr (.inr (.mk hown hmarker)))
  | settle hversion hmem hrecord hown hdecided =>
    cases hkey
    exact .inr (.inr (.inl (.settle hversion hmem hrecord hown hdecided)))
  | reap _ hmem hrecord hown =>
    cases hkey
    exact .inr (.inr (.inl (.reap hmem hrecord hown)))

theorem RowWrite.external (h : RowWrite host m cmd cur key op) (hnames : WellNamed cmd) :
    isInternalKey key = false := by
  rcases h.named with hrow | ⟨pk, sk, rfl⟩
  · exact hnames.row key hrow
  · exact isInternalKey_escape (host.items.length_partitionToken _) _ _

theorem isInternalKey_of_record (h : isRecordKey key = true) : isInternalKey key = true := by
  rw [isInternalKey, h, Bool.true_or]

theorem isInternalKey_of_marker (h : isResolvedMarkerKey key = true) : isInternalKey key = true := by
  rw [isInternalKey, h, Bool.or_true]

variable {ts : HlcTimestamp} {version : Nat} {voters : List Text} {m' : MemoryEngine} {keys : List Bytes}

variable {value : Bytes} {T : TxnId}

variable {r r' : Replica}
  {record token : Bytes} {outcome : TxnOutcome} {entry : LogEntry Cond} {out : ApplyOutcome}

/-- The transaction's record is there and has decided on an outcome. -/
def DecidedAs (T : TxnId) (record : Bytes) (outcome : TxnOutcome) (m : MemoryEngine) : Prop :=
  ∃ found, readRecordAt m (physical kindBase record) = some found ∧ found.txnId = T ∧
    found.status.decidedOutcome = some outcome

def Reaps (host : Host Cond) (T : TxnId) (record : Bytes) (r : Replica) (entry : LogEntry Cond) : Prop :=
  ∃ entries ts r' out, entry.command = .txnReap entries ts ∧ (T, record) ∈ entries ∧
    applyEntry host r entry = some (r', out) ∧ r'.view.read (physical kindBase record) = none

/-- An entry that names its keys as what they are, writes the record as no ordinary row, and does not reap it. -/
structure KeepsRecord (host : Host Cond) (T : TxnId) (record : Bytes) (r : Replica) (entry : LogEntry Cond) :
    Prop where
  names : WellNamed entry.command
  rows : ¬ WritesRow r.view entry.command record
  kept : ¬ Reaps host T record r entry

theorem readRecordAt_congr (h : m'.newest key = m.newest key) : readRecordAt m' key = readRecordAt m key := by
  rw [readRecordAt, readRecordAt, MemoryEngine.read, MemoryEngine.read, h]

theorem TxnStatus.Fits.decided {status : TxnStatus} (h : status.Fits)
    (hdecided : status.decidedOutcome = some outcome) : outcome.Fits := by
  cases status with
  | pending => cases hdecided
  | committed | aborted =>
    cases hdecided
    exact h
  | settled settledOutcome settledTs =>
    cases hdecided
    exact h.1

/-- One merge of an entry keeps the decision, or deletes the record by a reap that names it. -/
theorem DecidedAs.step (hT : T.Fits) (hrecord : recordKey token T = some record)
    (hstart : DecidedAs T record outcome m)
    {cmd : KvCommand Cond} (hnames : WellNamed cmd) (hrows : ¬ WritesRow m cmd record)
      (hcur : DecidedAs T record outcome cur ∨
      (∃ entries ts, cmd = .txnReap entries ts ∧ (T, record) ∈ entries) ∧
        cur.read (physical kindBase record) = none)
    (hwrite : Writes host m cmd cur op) : DecidedAs T record outcome (cur.mergeSlot op).2 ∨
      (∃ entries ts, cmd = .txnReap entries ts ∧ (T, record) ∈ entries) ∧
        (cur.mergeSlot op).2.read (physical kindBase record) = none := by
  rcases MemoryEngine.newest_mergeSlot cur op (physical kindBase record) with hsame | ⟨hkey, -, hnew⟩
  · rcases hcur with ⟨found, hfound, hrest⟩ | ⟨hreap, hnone⟩
    · exact .inl ⟨found, by rw [readRecordAt_congr hsame, hfound], hrest⟩
    · refine .inr ⟨hreap, ?_⟩
      rw [MemoryEngine.read, hsame]
      exact hnone
  have hinternal := isInternalKey_of_record (isRecordKey_recordKey hrecord)
  obtain ⟨start, hstartRecord, hstartOwn, hstartDecided⟩ := hstart
  rcases hwrite.base_cases hkey with hrow | hrow | hwrite | hmarker
  · exact absurd hrow hrows
  · exact absurd (hrow.external hnames) (by simp [hinternal])
  · cases hwrite with
    | pending hstage hanchor =>
      -- the stage's own transaction is T, whose record has decided
      obtain ⟨hfits, token', htoken'⟩ := hnames.record _ _ (.stage hanchor)
      obtain ⟨-, hown⟩ := recordKey_injective hT hfits hrecord htoken'
      have hundecided := hstage.undecided
      rw [alreadyDecided, hanchor, hstartRecord] at hundecided
      have hpending : start.status = .pending := by
        simpa [hstartOwn, hown] using hundecided
      rw [hpending] at hstartDecided
      cases hstartDecided
    | decision hcmd hfound hown hpending =>
      rw [hstartRecord] at hfound
      cases hfound
      rw [hpending] at hstartDecided
      cases hstartDecided
    | orphan hcmd hnone =>
      rw [hstartRecord] at hnone
      cases hnone
    | settle hversion hmem hfound hown hdecided =>
      rcases hcur with ⟨found, hfound', hown', hdecided'⟩ | ⟨⟨entries', ts', hcmd, -⟩, -⟩
      · rw [hfound'] at hfound
        cases hfound
        obtain rfl := hown.symm.trans hown'
        obtain rfl := some.inj (hdecided.symm.trans hdecided')
        obtain ⟨vv, -, hdecode⟩ := bind_eq_some_iff.mp hfound'
        obtain ⟨hstatus, hcreated⟩ := decodeRecord_fits hdecode
        refine .inl ⟨_, Eq.trans (by rw [readRecordAt, MemoryEngine.read, hnew]; rfl)
          (decodeRecord_encodeRecord ?_), rfl, rfl⟩
        exact ⟨hT, ⟨TxnStatus.Fits.decided hstatus hdecided, pack_fits hversion⟩,
          Nat.pow_pos (by decide), by simp, hcreated⟩
      · cases hcmd
    | reap hmem hfound hown =>
      rw [hstartRecord] at hfound
      cases hfound
      obtain rfl := hown.symm.trans hstartOwn
      refine .inr ⟨⟨_, _, rfl, hmem⟩, ?_⟩
      rw [MemoryEngine.read, hnew]
      rfl
  · obtain ⟨base, hbase⟩ := hmarker.marks
    exact absurd rfl (recordKey_ne_resolvedMarkerKey hrecord hbase)

theorem DecidedAs.apply (hT : T.Fits) (hrecord : recordKey token T = some record)
    (hstart : DecidedAs T record outcome r.view) (hkeeps : KeepsRecord host T record r entry)
    (happly : applyEntry host r entry = some (r', out)) : DecidedAs T record outcome r'.view := by
  have hend := (applyEntry_trace happly).preserves
    (fun _ _ hcur hwrite => hstart.step hT hrecord hkeeps.names hkeeps.rows hcur hwrite) (.inl hstart)
  rcases hend with hend | ⟨⟨entries, ts, hcmd, hmem⟩, hnone⟩
  · exact hend
  · exact absurd ⟨entries, ts, r', out, hcmd, hmem, happly, hnone⟩ hkeeps.kept

/-- On a decided record, a resolve that carries another outcome does nothing. -/
theorem DecidedAs.resolve {other : TxnOutcome} (h : DecidedAs T record outcome r.view) (hother : other ≠ outcome)
    (happly : applyEntry host r ⟨.txnResolve T record keys other ts, voters⟩ = some (r', out)) :
    out = .resolve .outcomeMismatch ∧ r'.view = r.view := by
  obtain ⟨found, hfound, hown, hdecided⟩ := h
  obtain ⟨checked, hchecked, happly⟩ := bind_eq_some_iff.mp happly
  obtain ⟨report, harm, rfl⟩ := of_reported happly
  unfold applyTxnResolve at harm
  dsimp only at harm
  rw [Replica.engine_flushPending, assertTsMonotonic_view hchecked] at harm
  obtain ⟨resolved, -, harm⟩ := bind_eq_some_iff.mp harm
  obtain ⟨version, -, harm⟩ := bind_eq_some_iff.mp harm
  have hmismatch : outcomeMismatch (readRecordAt r.view (physical kindBase record)) T other = true := by
    rw [hfound]
    simpa [outcomeMismatch, hown, hdecided] using Ne.symm hother
  rw [if_pos hmismatch] at harm
  cases harm
  exact ⟨rfl, Replica.view_flushPending.trans (assertTsMonotonic_view hchecked)⟩

/-- Once a transaction's record has decided, every later entry leaves the decision as it is until the record
is reaped, and a resolve that carries another outcome does nothing. -/
theorem decision_kept {log : List (LogEntry Cond)} (hT : T.Fits) (hrecord : recordKey token T = some record)
    (hdecided : DecidedAs T record outcome r.view) (hkeeps : Along host (KeepsRecord host T record) r log)
    (hrun : applyLog host r log = some r') : DecidedAs T record outcome r'.view ∧
      ∀ keys other ts voters r'' out, other ≠ outcome →
        applyEntry host r' ⟨.txnResolve T record keys other ts, voters⟩ = some (r'', out) →
          out = .resolve .outcomeMismatch ∧ r''.view = r'.view := by
  have hend : DecidedAs T record outcome r'.view :=
    applyLog_preserves (I := fun r => DecidedAs T record outcome r.view) hrun hkeeps
      (fun _ _ _ _ hstart hkeeps happly => hstart.apply hT hrecord hkeeps happly) hdecided
  exact ⟨hend, fun _ _ _ _ _ _ hother happly => hend.resolve hother happly⟩

/-- A replica that holds one committed record. -/
def committedReplica (T : TxnId) (record : Bytes) : Replica :=
  freshReplica.merge ⟨physical kindBase record, 3, some (encodeRecord ⟨T, .committed ⟨3, 0⟩, [], ⟨2, 0⟩⟩)⟩

theorem sampleTxn_fits : (sampleTxn 1).Fits := ⟨by decide, by decide, by decide⟩

/-- A late abort changes nothing about a commit. -/
theorem decision_kept_late_abort : ∃ record r', recordKey (replicate 8 0) (sampleTxn 1) = some record ∧
    applyLog plainHost (committedReplica (sampleTxn 1) record)
      (sampleLog [.txnAbort (sampleTxn 1) record ⟨5, 0⟩ none]) = some r' ∧
    DecidedAs (sampleTxn 1) record (.committed ⟨3, 0⟩) r'.view := by
  obtain ⟨record, hrecord⟩ : ∃ record, recordKey (replicate 8 0) (sampleTxn 1) = some record := ⟨_, rfl⟩
  have hdecided : DecidedAs (sampleTxn 1) record (.committed ⟨3, 0⟩)
    (committedReplica (sampleTxn 1) record).view := by
    cases hrecord
    exact ⟨⟨sampleTxn 1, .committed ⟨3, 0⟩, [], ⟨2, 0⟩⟩, by decide +kernel, rfl, rfl⟩
  obtain ⟨r', hrun⟩ : ∃ r', applyLog plainHost (committedReplica (sampleTxn 1) record)
      (sampleLog [.txnAbort (sampleTxn 1) record ⟨5, 0⟩ none]) = some r' := by
    cases hrecord
    exact isSome_iff_exists.mp (by decide +kernel)
  have hkeeps : Along plainHost (KeepsRecord plainHost (sampleTxn 1) record)
      (committedReplica (sampleTxn 1) record) (sampleLog [.txnAbort (sampleTxn 1) record ⟨5, 0⟩ none]) := by
    refine ⟨⟨⟨by rintro key ⟨⟩, ?_⟩, by rintro ⟨⟩, ?_⟩, fun _ _ _ => trivial⟩
    · rintro txnId key ⟨⟩
      rename_i hcmd
      obtain ⟨rfl, hrest⟩ := Prod.mk.inj (some.inj hcmd)
      cases hrest
      exact ⟨sampleTxn_fits, _, hrecord⟩
    · rintro ⟨entries, ts, r', out, hcmd, -⟩
      cases hcmd
  exact ⟨record, r', hrecord, hrun, (decision_kept sampleTxn_fits hrecord hdecided hkeeps hrun).1⟩

variable {intentVersion : Nat}

variable {k marker : Bytes}

def markerAt (m : MemoryEngine) (marker : Bytes) : Option TxnId :=
  (m.read (physical kindBase marker)).bind fun vv => decodeResolvedMarker vv.value

def ResolvesOther (host : Host Cond) (T : TxnId) (k : Bytes) (r : Replica) (entry : LogEntry Cond) : Prop :=
  ∃ T' record keys outcome ts i intentVersion r', entry.command = .txnResolve T' record keys outcome ts ∧ T' ≠ T ∧
    k ∈ keys ∧ ownIntent r.view T' k = some (some (i, intentVersion)) ∧
      applyEntry host r entry = some (r', .resolve .resolved)

/-- An entry that names its keys as what they are, writes the marker as no ordinary row, and resolves the
key for no other transaction. -/
structure KeepsMarker (host : Host Cond) (T : TxnId) (k marker : Bytes) (r : Replica)
    (entry : LogEntry Cond) : Prop where
  names : WellNamed entry.command
  rows : ¬ WritesRow r.view entry.command marker
  kept : ¬ ResolvesOther host T k r entry

theorem markerAt_of_newest (h : m.newest (physical kindBase marker) = some
    ⟨physical kindBase marker, version, some value⟩) : markerAt m marker = decodeResolvedMarker value := by
  rw [markerAt, MemoryEngine.read, h]
  rfl

theorem resolve_view {T' : TxnId}
    (happly : applyEntry host r ⟨.txnResolve T' record keys outcome ts, voters⟩ = some (r', out))
    (hout : out ≠ .resolve .resolved) : r'.view = r.view := by
  obtain ⟨checked, hchecked, happly⟩ := bind_eq_some_iff.mp happly
  obtain ⟨report, harm, rfl⟩ := of_reported happly
  rcases applyTxnResolve_cases harm with ⟨rfl, -⟩ | ⟨rfl, -⟩
  · exact Replica.view_flushPending.trans (assertTsMonotonic_view hchecked)
  · exact absurd rfl hout

section Marker

variable (hT : T.Fits) (hmarker : resolvedMarkerKey k = some marker)

include hmarker

/-- What a merge can make of a key's marker: nothing, or the mark of a transaction that resolves the key. -/
theorem marker_step {cmd : KvCommand Cond} (hnames : WellNamed cmd)
    (hrows : ¬ WritesRow m cmd marker) (hwrite : Writes host m cmd cur op) :
    (cur.mergeSlot op).2.newest (physical kindBase marker) = cur.newest (physical kindBase marker) ∨
      ∃ T' record keys outcome ts version i intentVersion, cmd = .txnResolve T' record keys outcome ts ∧
        Resolves m T' record keys outcome k i intentVersion ∧
        (cur.mergeSlot op).2.newest (physical kindBase marker) =
            some ⟨physical kindBase marker, version, some (encodeResolvedMarker T')⟩ := by
  refine (newest_mergeSlot cur op (physical kindBase marker)).imp id fun ⟨hkey, _, hnew⟩ => ?_
  have hinternal := isInternalKey_of_marker (isResolvedMarkerKey_resolvedMarkerKey hmarker)
  rcases hwrite.base_cases hkey with hrow | hrow | hrecord | hwrite
  · exact absurd hrow hrows
  · exact absurd (hrow.external hnames) (by simp [hinternal])
  · obtain ⟨T', hnamed⟩ := hrecord.named
    obtain ⟨-, token, htoken⟩ := hnames.record _ _ hnamed
    exact absurd rfl (recordKey_ne_resolvedMarkerKey htoken hmarker)
  · cases hwrite with
    | mk hown hmarker' =>
      obtain rfl := resolvedMarkerKey_injective hmarker' hmarker
      exact ⟨_, _, _, _, _, _, _, _, rfl, hown, hnew⟩

section Resolved

variable {i : Intent} (hkey : k ∈ keys) (hown : ownIntent r.view T k = some (some (i, intentVersion)))
  (hversion : pack ts = some version)
  (happly : applyEntry host r ⟨.txnResolve T record keys outcome ts, voters⟩ = some (r', .resolve .resolved))

include hkey hown hversion happly

/-- A resolve that finds its intent at a key merges the key's marker. -/
theorem reaches_marker : r'.view.Reaches (physical kindBase marker) version := by
  obtain ⟨checked, hchecked, happly⟩ := bind_eq_some_iff.mp happly
  obtain ⟨report, harm, hreport⟩ := of_reported happly
  obtain rfl := ApplyOutcome.resolve.inj hreport
  rcases applyTxnResolve_cases harm with ⟨-, hne⟩ |
    ⟨-, -, -, version', resolved, acc, hversion', hresolved, hacc, rfl⟩
  · exact absurd rfl hne
  rw [assertTsMonotonic_view hchecked] at hresolved hacc
  obtain rfl := some.inj (hversion.symm.trans hversion')
  obtain ⟨hlength, hzip⟩ := mapM_zip hresolved
  obtain ⟨found, hmem⟩ := mem_zip_of_length hlength hkey
  have hfound := hzip _ hmem
  obtain rfl := some.inj (hown.symm.trans hfound)
  have hop : (⟨physical kindBase marker, version, some (encodeResolvedMarker T)⟩ : MergeOp) ∈ acc.1 := by
    refine foldlM_establishes (P := fun acc : List MergeOp × Nat =>
      (⟨physical kindBase marker, version, some (encodeResolvedMarker T)⟩ : MergeOp) ∈ acc.1) hacc hmem ?_ ?_
    · intro b b' hstep
      obtain ⟨marker', hmarker', hstep⟩ := bind_eq_some_iff.mp hstep
      cases hstep
      obtain rfl := some.inj (hmarker.symm.trans hmarker')
      exact mem_append_right _ (mem_singleton_self _)
    · rintro ⟨key', found'⟩ - b b' hb hstep
      cases found' with
      | none =>
        cases hstep
        exact hb
      | some found' =>
        obtain ⟨marker', -, hstep⟩ := bind_eq_some_iff.mp hstep
        cases hstep
        exact mem_append_left _ (mem_append_left _ hb)
  rw [Replica.view_push]
  exact reaches_mergeAll _ hop

include hT in
/-- A resolve that finds its intent at a key leaves the key's marker naming its transaction. -/
theorem markerAt_resolved (hnames : WellNamed (.txnResolve T record keys outcome ts : KvCommand Cond))
    (hrows : ¬ WritesRow r.view (.txnResolve T record keys outcome ts : KvCommand Cond) marker)
    (hold : ∀ old, r.view.newest (physical kindBase marker) = some old → old.version < version) :
    markerAt r'.view marker = some T := by
  have hmarked := (applyEntry_trace happly).preserves
    (I := fun cur => cur.newest (physical kindBase marker) = r.view.newest (physical kindBase marker) ∨
      ∃ version, cur.newest (physical kindBase marker) =
        some ⟨physical kindBase marker, version, some (encodeResolvedMarker T)⟩) ?_ (.inl rfl)
  · rcases hmarked with hsame | ⟨version', hnew⟩
    · -- the marker's own merge is newer than what was there
      obtain ⟨new, hnew, hle⟩ := reaches_marker hmarker hkey hown hversion happly
      rw [hsame] at hnew
      exact absurd (hold new hnew) (Nat.not_lt.mpr hle)
    · rw [markerAt_of_newest hnew, decodeResolvedMarker_encodeResolvedMarker hT]
  · intro cur op hcur hwrite
    rcases marker_step hmarker hnames hrows hwrite with hsame | ⟨T', _, _, _, _, version', _, _, hcmd, -, hnew⟩
    · rw [hsame]
      exact hcur
    · obtain ⟨rfl, -⟩ := KvCommand.txnResolve.inj hcmd
      exact .inr ⟨version', hnew⟩

end Resolved

include hT in
/-- Until another transaction resolves the key, its marker goes on naming the transaction. -/
theorem markerAt_entry (hkeeps : KeepsMarker host T k marker r entry) (hstart : markerAt r.view marker = some T)
    (happly : applyEntry host r entry = some (r', out)) : markerAt r'.view marker = some T := by
  obtain ⟨cmd, voters⟩ := entry
  by_cases hother : ∃ T' record keys outcome ts i intentVersion, cmd = .txnResolve T' record keys outcome ts ∧
      T' ≠ T ∧ Resolves r.view T' record keys outcome k i intentVersion
  · obtain ⟨T', record, keys, outcome, ts, i, intentVersion, rfl, hne, hown⟩ := hother
    have hview := resolve_view happly fun hresolved => hkeeps.kept
      ⟨T', record, keys, outcome, ts, i, intentVersion, r', rfl, hne, hown.named, hown.own, hresolved ▸ happly⟩
    rw [hview]
    exact hstart
  · refine (applyEntry_trace happly).preserves (I := fun cur => markerAt cur marker = some T) ?_ hstart
    intro cur op hcur hwrite
    rcases marker_step hmarker hkeeps.names hkeeps.rows hwrite with
      hsame | ⟨T', record, keys, outcome, ts, version', i, intentVersion, hcmd, hown, hnew⟩
    · rw [markerAt, MemoryEngine.read, hsame]
      exact hcur
    · by_cases hne : T' = T
      · rw [markerAt_of_newest hnew, hne, decodeResolvedMarker_encodeResolvedMarker hT]
      · exact absurd ⟨T', record, keys, outcome, ts, i, intentVersion, hcmd, hne, hown⟩ hother

theorem not_staged_of_marker {s : TxnStage Cond} (hown : s.txnId = T) (hwrite : ∃ w ∈ s.writes, w.key = k)
    (hmarked : markerAt r.view marker = some T) :
    applyEntry host r ⟨.txnStage s ts, voters⟩ ≠ some (r', .stage .staged) := by
  intro happly
  obtain ⟨checked, hchecked, happly⟩ := bind_eq_some_iff.mp happly
  obtain ⟨report, harm, hreport⟩ := of_reported happly
  obtain rfl := ApplyOutcome.stage.inj hreport
  rcases applyTxnStage_cases harm with ⟨-, hne⟩ | ⟨-, -, version, payloads, -, haccepted, -⟩
  · exact hne rfl
  · obtain ⟨w, hw, rfl⟩ := hwrite
    have hunresolved := anyM_false haccepted.unresolved w hw
    rw [assertTsMonotonic_view hchecked, hmarker, map_some, some.injEq, decide_eq_false_iff_not] at hunresolved
    exact hunresolved (hown ▸ hmarked)

end Marker

/-- Once a resolve of a transaction has taken effect on a key, no stage of the transaction that names the
key is accepted until another transaction resolves the key. -/
theorem resolved_key_refuses_stage (hT : T.Fits) (hmarker : resolvedMarkerKey k = some marker) {record : Bytes}
    {keys : List Bytes} {outcome : TxnOutcome} {ts ts' : HlcTimestamp} {voters voters' : List Text} {i : Intent}
    {intentVersion version : Nat} {log : List (LogEntry Cond)} {s : TxnStage Cond} {r₁ r₂ r₃ : Replica}
    (hkey : k ∈ keys) (hown : ownIntent r.view T k = some (some (i, intentVersion)))
    (hkeeps : KeepsMarker host T k marker r ⟨.txnResolve T record keys outcome ts, voters⟩)
      (hversion : pack ts = some version)
    (hold : ∀ old, r.view.newest (physical kindBase marker) = some old → old.version < version)
    (hresolve : applyEntry host r ⟨.txnResolve T record keys outcome ts, voters⟩ = some (r₁, .resolve .resolved))
    (hrun : applyLog host r₁ log = some r₂) (hlog : Along host (KeepsMarker host T k marker) r₁ log)
    (hstage : s.txnId = T) (hwrite : ∃ w ∈ s.writes, w.key = k) :
    applyEntry host r₂ ⟨.txnStage s ts', voters'⟩ ≠ some (r₃, .stage .staged) := by
  have hmarked := markerAt_resolved hT hmarker hkey hown hversion hresolve hkeeps.names hkeeps.rows hold
  have hend : markerAt r₂.view marker = some T :=
    applyLog_preserves (I := fun r => markerAt r.view marker = some T) hrun hlog
      (fun _ _ _ _ hstart hkeeps happly => markerAt_entry hT hmarker hkeeps hstart happly) hmarked
  exact not_staged_of_marker hmarker hstage hwrite hend

/-- A replica whose only row is an intent. -/
def intentReplica (T : TxnId) : Replica :=
  freshReplica.merge ⟨physical kindBase sampleKey, 2,
    some (encodeIntent ((sampleStage T [1]).intent ⟨some [1], [], none⟩ none) none)⟩

/-- A row written to another key does not let the transaction stage the key again. -/
theorem resolved_key_refuses_stage_put : ∃ r₁ r₂, applyEntry plainHost (intentReplica (sampleTxn 1))
      ⟨.txnResolve (sampleTxn 1) [] [sampleKey] (.committed ⟨3, 0⟩) ⟨4, 0⟩, []⟩ =
      some (r₁, .resolve .resolved) ∧ applyLog plainHost r₁ (sampleLog [.put [0x62] [7] ⟨5, 0⟩]) = some r₂ ∧
    ∀ r₃, applyEntry plainHost r₂ ⟨.txnStage (sampleStage (sampleTxn 1) [1]) ⟨6, 0⟩, []⟩ ≠
      some (r₃, .stage .staged) := by
  obtain ⟨marker, hmarker⟩ : ∃ marker, resolvedMarkerKey sampleKey = some marker := ⟨_, rfl⟩
  obtain ⟨⟨r₁, out⟩, hresolve, rfl, hrun⟩ : ∃ p ∈ applyEntry plainHost (intentReplica (sampleTxn 1))
      ⟨.txnResolve (sampleTxn 1) [] [sampleKey] (.committed ⟨3, 0⟩) ⟨4, 0⟩, []⟩, p.2 = .resolve .resolved ∧
        (applyLog plainHost p.1 (sampleLog [.put [0x62] [7] ⟨5, 0⟩])).isSome := by decide +kernel
  obtain ⟨r₂, hrun⟩ := isSome_iff_exists.mp hrun
  have hown : ownIntent (intentReplica (sampleTxn 1)).view (sampleTxn 1) sampleKey =
      some (some ((sampleStage (sampleTxn 1) [1]).intent ⟨some [1], [], none⟩ none, 2)) := by decide +kernel
  have hkeeps : KeepsMarker plainHost (sampleTxn 1) sampleKey marker (intentReplica (sampleTxn 1))
      ⟨.txnResolve (sampleTxn 1) [] [sampleKey] (.committed ⟨3, 0⟩) ⟨4, 0⟩, []⟩ := by
    refine ⟨⟨?_, by rintro txnId key (_ | ⟨⟨⟩⟩)⟩, ?_, ?_⟩
    · rintro key ⟨⟩
      rename_i hmem
      obtain rfl := mem_singleton.mp hmem
      decide
    · rintro (_ | _ | _ | _ | _ | ⟨hresolves, hmem, -⟩)
      obtain rfl := mem_singleton.mp hresolves.named
      obtain ⟨rfl, -⟩ := Prod.mk.inj (some.inj (some.inj (hown.symm.trans hresolves.own)))
      cases hmem
    · rintro ⟨T', record, keys, outcome, ts, i, intentVersion, r', hcmd, hne, -⟩
      obtain ⟨rfl, -⟩ := KvCommand.txnResolve.inj hcmd
      exact hne rfl
  have hlog : Along plainHost (KeepsMarker plainHost (sampleTxn 1) sampleKey marker) r₁
    (sampleLog [.put [0x62] [7] ⟨5, 0⟩]) := by
    refine ⟨⟨⟨by rintro key ⟨⟩, by rintro txnId key (_ | ⟨⟨⟩⟩)⟩, ?_, ?_⟩, fun _ _ _ => trivial⟩
    · cases hmarker
      rintro ⟨⟩
    · rintro ⟨T', record, keys, outcome, ts, i, intentVersion, r', hcmd, -⟩
      cases hcmd
  have hfresh : ∀ old ∈ (intentReplica (sampleTxn 1)).view.newest (physical kindBase marker), old.version <
    4 * 2 ^ 20 := by
    cases hmarker
    decide +kernel
  exact ⟨r₁, r₂, hresolve, hrun, fun r₃ => resolved_key_refuses_stage sampleTxn_fits hmarker
    (mem_singleton_self _) hown hkeeps rfl hfresh hresolve hrun hlog rfl ⟨_, mem_singleton_self _, rfl⟩⟩

/-- After another transaction has resolved the key, the first one stages it again. -/
theorem resolved_key_staged_again : (applyReporting plainHost freshReplica (sampleLog [
      .txnStage (sampleStage (sampleTxn 1) [1]) ⟨2, 0⟩, .txnResolve (sampleTxn 1) [] [sampleKey]
      (.committed ⟨3, 0⟩) ⟨4, 0⟩,
      .txnStage (sampleStage (sampleTxn 5) [2]) ⟨6, 0⟩, .txnResolve (sampleTxn 5) [] [sampleKey]
        (.committed ⟨7, 0⟩) ⟨8, 0⟩, .txnStage (sampleStage (sampleTxn 1) [1]) ⟨9, 0⟩])).map Prod.snd =
    some [.stage .staged, .resolve .resolved, .stage .staged, .resolve .resolved, .stage .staged] := by
  decide +kernel

variable {p : Option Bytes} {i : Intent}

/-- The key holds the transaction's intent over a known prior value. -/
def Shadows (T : TxnId) (k : Bytes) (p : Option Bytes) (m : MemoryEngine) : Prop :=
  ∃ i, HoldsIntent m (physical kindBase k) i ∧ i.txnId = T ∧ i.prior = .known p

def Stages (T : TxnId) (k : Bytes) (cmd : KvCommand Cond) : Prop :=
  ∃ s ts, cmd = .txnStage s ts ∧ s.txnId = T ∧ ∃ w ∈ s.writes, w.key = k

def ResolvesOwn (host : Host Cond) (T : TxnId) (k : Bytes) (r : Replica) (entry : LogEntry Cond) : Prop :=
  ∃ record keys outcome ts r', entry.command = .txnResolve T record keys outcome ts ∧ k ∈ keys ∧
    applyEntry host r entry = some (r', .resolve .resolved)

/-- The payloads that a stage evaluates to have encodable lengths. -/
def PayloadsFit (host : Host Cond) (m : MemoryEngine) (s : TxnStage Cond) : Prop :=
  ∀ w ∈ s.writes, ∀ payload, evaluateWrite host.items s m w = some (.ok payload) →
    ∀ p, (s.intent payload p).Fits

/-- An entry that names its keys as what they are, writes no ordinary row over the intent, and does not
resolve it. -/
structure SparesIntent (host : Host Cond) (T : TxnId) (k : Bytes) (r : Replica) (entry : LogEntry Cond) :
    Prop where
  names : WellNamed entry.command
  rows : ¬ WritesRow r.view entry.command k
  kept : ¬ ResolvesOwn host T k r entry
  fits : ∀ s ts, entry.command = .txnStage s ts → s.txnId = T → PayloadsFit host r.view s

theorem HoldsIntent.read (h : HoldsIntent m key i) :
    ∃ vv, m.read key = some vv ∧ decodeEnvelope vv.value = some (.intent i) := by
  unfold HoldsIntent readEnvelope at h
  split at h
  · cases h
  · rename_i vv hread
    obtain ⟨envelope, hdecode, heq⟩ := map_eq_some_iff.mp h
    cases heq
    exact ⟨vv, hread, hdecode⟩

theorem holdsIntent_of_newest
    (h : m.newest key = some ⟨key, version, some value⟩) (hdecode : decodeEnvelope value = some (.intent i)) :
    HoldsIntent m key i := by
  rw [HoldsIntent, readEnvelope, MemoryEngine.read, h]
  exact congrArg (Option.map some) hdecode

theorem holdsIntent_congr (h : m'.newest key = m.newest key) :
    HoldsIntent m' key i ↔ HoldsIntent m key i := by
  rw [HoldsIntent, HoldsIntent, readEnvelope, readEnvelope, MemoryEngine.read, MemoryEngine.read, h]

theorem Shadows.congr (h : Shadows T k p m)
    (hsame : m'.newest (physical kindBase k) = m.newest (physical kindBase k)) : Shadows T k p m' := by
  obtain ⟨i, hi, hrest⟩ := h
  exact ⟨i, (holdsIntent_congr hsame).mpr hi, hrest⟩

theorem ownIntent_eq {T' : TxnId} {i' : Intent} (h : HoldsIntent m (physical kindBase k) i)
    (hown : ownIntent m T' k = some (some (i', intentVersion))) : i' = i ∧ i.txnId = T' := by
  obtain ⟨vv, hread, hdecode⟩ := h.read
  rw [ownIntent, hread] at hown
  dsimp only at hown
  rw [hdecode, map_some] at hown
  dsimp only at hown
  split_ifs at hown with heq
  · obtain ⟨rfl, -⟩ := Prod.mk.inj (some.inj (some.inj hown))
    exact ⟨rfl, heq⟩
  · cases hown

variable {s : TxnStage Cond} {w : TxnWrite Cond}

theorem Accepted.own (h : Accepted s m version) (hw : w ∈ s.writes)
    (hi : HoldsIntent m (physical kindBase w.key) i) : i.txnId = s.txnId := by
  have hrow := findSomeM_none h.unblocked w hw
  rw [show readEnvelope m (physical kindBase w.key) = some (some (.intent i)) from hi, map_some] at hrow
  dsimp only at hrow
  by_contra hne
  rw [if_pos hne] at hrow
  cases hrow

theorem Shadows.prior (h : Shadows T k p m) : stageIntentPrior m (physical kindBase k) T = some p := by
  obtain ⟨i, hi, hown, hprior⟩ := h
  obtain ⟨vv, hread, hdecode⟩ := hi.read
  rw [stageIntentPrior, hread]
  dsimp only
  rw [hdecode]
  simp [hown, hprior]

/-- What a merge can make of a key that holds a transaction's intent: nothing, or a new intent of that
transaction. -/
theorem intent_step {cmd : KvCommand Cond} (hk : isInternalKey k = false) (hstart : Shadows T k p m)
    (hnames : WellNamed cmd) (hrows : ¬ WritesRow m cmd k)
    (hresolve : ¬ ∃ record keys outcome ts, cmd = .txnResolve T record keys outcome ts ∧ k ∈ keys)
    (hwrite : Writes host m cmd cur op) :
      (cur.mergeSlot op).2.newest (physical kindBase k) = cur.newest (physical kindBase k) ∨
      ∃ s ts version w payload prior, cmd = .txnStage s ts ∧ s.txnId = T ∧ w ∈ s.writes ∧ w.key = k ∧
        evaluateWrite host.items s m w = some (.ok payload) ∧ stageIntentPrior cur (physical kindBase k) T =
            some prior ∧ (cur.mergeSlot op).2.newest (physical kindBase k) =
              some ⟨physical kindBase k, version, some (encodeIntent (s.intent payload prior) prior)⟩ := by
  refine (newest_mergeSlot cur op (physical kindBase k)).imp id fun ⟨hkey, _, hnew⟩ => ?_
  obtain ⟨i, hi, hown, -⟩ := hstart
  rcases hwrite.base_cases hkey with hrow | hrow | hrecord | hmarker
  · exact absurd hrow hrows
  · cases hrow with
    | free _ hfree => exact absurd hi (hfree i)
    | intent hstage hmem hpayload hprior =>
      obtain rfl := (hstage.own hmem hi).symm.trans hown
      exact ⟨_, _, _, _, _, _, rfl, rfl, hmem, rfl, hpayload, hprior, hnew⟩
    | resolved hresolves =>
      obtain rfl := (ownIntent_eq hi hresolves.own).2.symm.trans hown
      exact absurd ⟨_, _, _, _, rfl, hresolves.named⟩ hresolve
  · obtain ⟨T', hnamed⟩ := hrecord.named
    obtain ⟨-, token, htoken⟩ := hnames.record _ _ hnamed
    rw [isInternalKey_of_record (isRecordKey_recordKey htoken)] at hk
    cases hk
  · obtain ⟨base, hbase⟩ := hmarker.marks
    rw [isInternalKey_of_marker (isResolvedMarkerKey_resolvedMarkerKey hbase)] at hk
    cases hk

/-- Until its transaction resolves the key, an entry leaves the intent there; only a stage of the same
transaction may renew it, over the same prior value. -/
theorem Shadows.apply (hk : isInternalKey k = false) (hp : ShortOpt p) (hstart : Shadows T k p r.view)
    (hspares : SparesIntent host T k r entry) (happly : applyEntry host r entry = some (r', out)) :
    Shadows T k p r'.view ∧ (¬ Stages T k entry.command →
      r'.view.newest (physical kindBase k) = r.view.newest (physical kindBase k)) := by
  obtain ⟨cmd, voters⟩ := entry
  by_cases hresolve : ∃ record keys outcome ts, cmd = .txnResolve T record keys outcome ts ∧ k ∈ keys
  · obtain ⟨record, keys, outcome, ts, rfl, hkey⟩ := hresolve
    have hview := resolve_view happly fun hresolved =>
      hspares.kept ⟨record, keys, outcome, ts, r', rfl, hkey, hresolved ▸ happly⟩
    rw [hview]
    exact ⟨hstart, fun _ => rfl⟩
  · refine (applyEntry_trace happly).preserves (I := fun cur => Shadows T k p cur ∧ (¬ Stages T k cmd →
      cur.newest (physical kindBase k) = r.view.newest (physical kindBase k))) ?_ ⟨hstart, fun _ => rfl⟩
    rintro cur op ⟨hcur, hquiet⟩ hwrite
    rcases intent_step hk hstart hspares.names hspares.rows hresolve hwrite with
      hsame | ⟨s, ts, version, w, payload, prior, hcmd, hown, hmem, hwkey, hpayload, hprior, hnew⟩
    · exact ⟨hcur.congr hsame, fun hstages => hsame.trans (hquiet hstages)⟩
    · obtain rfl := some.inj (hprior.symm.trans hcur.prior)
      have hfits := hspares.fits s ts hcmd hown w hmem payload hpayload prior
      exact ⟨⟨_, holdsIntent_of_newest hnew (decodeEnvelope_intent hfits hp), hown, rfl⟩,
        fun hstages => absurd ⟨s, ts, hcmd, hown, w, hmem, hwkey⟩ hstages⟩

theorem reaches_staged (hversion : pack ts = some version) (hw : w ∈ s.writes)
    (happly : applyEntry host r ⟨.txnStage s ts, voters⟩ = some (r', .stage .staged)) :
    r'.view.Reaches (physical kindBase w.key) version := by
  obtain ⟨checked, -, happly⟩ := bind_eq_some_iff.mp happly
  obtain ⟨report, harm, hreport⟩ := of_reported happly
  obtain rfl := ApplyOutcome.stage.inj hreport
  rcases applyTxnStage_cases harm with ⟨-, hne⟩ | ⟨-, -, version', payloads, hversion', -, hpayloads, hstaged⟩
  · exact absurd rfl hne
  obtain rfl := some.inj (hversion.symm.trans hversion')
  obtain ⟨staged, hintents, hstaged⟩ := bind_eq_some_iff.mp hstaged
  obtain ⟨payload, hmem⟩ := mem_zip_of_length (evaluateWrites_zip hpayloads).1 hw
  have hreaches : staged.engine.Reaches (physical kindBase w.key) version := by
    refine foldlM_establishes (P := fun b => b.engine.Reaches (physical kindBase w.key) version) hintents hmem ?_ ?_
    · intro b b' hstep
      obtain ⟨prior, -, rfl⟩ := map_eq_some_iff.mp hstep
      rw [Replica.engine_merge]
      exact reaches_mergeSlot _ _
    · rintro q - b b' hb hstep
      obtain ⟨prior, -, rfl⟩ := map_eq_some_iff.mp hstep
      rw [Replica.engine_merge]
      exact hb.mergeSlot _
  split_ifs at hstaged
  · cases hstaged
    rw [Replica.view_merge, Replica.engine_push]
    exact (hreaches.mergeSlot _).mergeAll _
  · cases hstaged
    rw [Replica.view_push]
    exact (hreaches.mergeAll _).mergeAll _

theorem stageIntentPrior_congr (h : m'.history key = m.history key) (T : TxnId) :
    stageIntentPrior m' key T = stageIntentPrior m key T := by
  have hread : m'.read key = m.read key := by rw [MemoryEngine.read, MemoryEngine.read, MemoryEngine.newest,
    MemoryEngine.newest, h]
  unfold stageIntentPrior stageIntentPrior.lookback
  simp only [hread, MemoryEngine.getAt_congr h]

/-- After an accepted stage its key holds the intent that the stage evaluated, over the value the key held
before. -/
theorem holdsIntent_staged
    (hversion : pack ts = some version) (hw : w ∈ s.writes) (hk : isInternalKey w.key = false)
    (hp : ShortOpt p) (hprior : stageIntentPrior r.view (physical kindBase w.key) s.txnId = some p)
    (hnames : WellNamed (.txnStage s ts : KvCommand Cond)) (hfits : PayloadsFit host r.view s)
    (hold : ∀ old, r.view.newest (physical kindBase w.key) = some old → old.version < version)
    (happly : applyEntry host r ⟨.txnStage s ts, voters⟩ = some (r', .stage .staged)) :
    ∃ w' ∈ s.writes, w'.key = w.key ∧ ∃ payload, evaluateWrite host.items s r.view w' = some (.ok payload) ∧
      HoldsIntent r'.view (physical kindBase w.key) (s.intent payload p) := by
  have hend := (applyEntry_trace happly).preserves
    (I := fun cur => stageIntentPrior cur (physical kindBase w.key) s.txnId = some p ∧
      (cur.newest (physical kindBase w.key) = r.view.newest (physical kindBase w.key) ∨
        ∃ w' ∈ s.writes, w'.key = w.key ∧ ∃ payload, evaluateWrite host.items s r.view w' = some (.ok payload) ∧
          HoldsIntent cur (physical kindBase w.key) (s.intent payload p))) ?_ ⟨hprior, .inl rfl⟩
  · rcases hend.2 with hsame | hheld
    · obtain ⟨new, hnew, hle⟩ := reaches_staged hversion hw happly
      rw [hsame] at hnew
      exact absurd (hold new hnew) (Nat.not_lt.mpr hle)
    · exact hheld
  rintro cur op ⟨hpriorCur, hcur⟩ hwrite
  by_cases hkey : op.key = physical kindBase w.key
  · by_cases hwins : cur.Wins op
    · have hnew := newest_mergeSlot_of_wins hwins
      rw [hkey] at hnew
      cases hwrite with
      | @stageIntent _ _ _ _ w' payload prior _ _ hmem hpayload hprior' =>
        obtain ⟨-, hwkey⟩ := cons.inj hkey
        rw [hwkey, hpriorCur] at hprior'
        cases hprior'
        rw [hwkey] at hnew ⊢
        have hheld := holdsIntent_of_newest hnew (decodeEnvelope_intent (hfits w' hmem payload hpayload p) hp)
        refine ⟨Shadows.prior ⟨_, hheld, rfl, rfl⟩, .inr ⟨w', hmem, hwkey, payload, hpayload, hheld⟩⟩
      | stageMarker => exact absurd (cons.inj hkey).1 (by decide)
      | stageRecord _ _ hanchor =>
        obtain ⟨-, token, htoken⟩ := hnames.record _ _ (.stage hanchor)
        rw [← (cons.inj hkey).2, isInternalKey_of_record (isRecordKey_recordKey htoken)] at hk
        cases hk
      | decision hcmd => cases hcmd
      | orphan hcmd => cases hcmd
    · rw [mergeSlot_of_not_wins hwins]
      exact ⟨hpriorCur, hcur⟩
  · have hhistory := history_mergeSlot_of_ne (m := cur) hkey
    have hnewest := congrArg getLast? hhistory
    refine ⟨(stageIntentPrior_congr hhistory _).trans hpriorCur, hcur.imp hnewest.trans ?_⟩
    rintro ⟨w', hmem, hwkey, payload, hpayload, hheld⟩
    exact ⟨w', hmem, hwkey, payload, hpayload, (holdsIntent_congr hnewest).mpr hheld⟩

/-- Once a stage is accepted, its key keeps the transaction's intent, and the committed value the key held
before in it, until the transaction resolves the key or an ordinary row is written over it. The staged value
too stays as it is until the transaction stages the key again. -/
theorem staged_intent_kept {s : TxnStage Cond} {ts : HlcTimestamp} {voters : List Text} {version : Nat}
    {w : TxnWrite Cond} {log : List (LogEntry Cond)} {r₁ r₂ : Replica}
    (hversion : pack ts = some version) (hw : w ∈ s.writes) (hk : isInternalKey w.key = false) (hp : ShortOpt p)
    (hprior : stageIntentPrior r.view (physical kindBase w.key) s.txnId = some p)
    (hnames : WellNamed (.txnStage s ts : KvCommand Cond)) (hfits : PayloadsFit host r.view s)
    (hold : ∀ old, r.view.newest (physical kindBase w.key) = some old → old.version < version)
    (hstage : applyEntry host r ⟨.txnStage s ts, voters⟩ = some (r₁, .stage .staged))
    (hrun : applyLog host r₁ log = some r₂) (hlog : Along host (SparesIntent host s.txnId w.key) r₁ log) :
    ∃ w' ∈ s.writes, w'.key = w.key ∧ ∃ payload, evaluateWrite host.items s r.view w' = some (.ok payload) ∧
      HoldsIntent r₁.view (physical kindBase w.key) (s.intent payload p) ∧
      (∃ i, HoldsIntent r₂.view (physical kindBase w.key) i ∧ i.txnId = s.txnId ∧ i.prior = .known p) ∧
      ((∀ entry ∈ log, ¬ Stages s.txnId w.key entry.command) →
        HoldsIntent r₂.view (physical kindBase w.key) (s.intent payload p)) := by
  obtain ⟨w', hmem, hwkey, payload, hpayload, hheld⟩ :=
    holdsIntent_staged hversion hw hk hp hprior hnames hfits hold hstage
  refine ⟨w', hmem, hwkey, payload, hpayload, hheld, ?_, ?_⟩
  · exact applyLog_preserves (I := fun r => Shadows s.txnId w.key p r.view) hrun hlog
      (fun _ _ _ _ hstart hspares happly => (hstart.apply hk hp hspares happly).1) ⟨_, hheld, rfl, rfl⟩
  · intro hquiet
    have hkept : Shadows s.txnId w.key p r₂.view ∧
        r₂.view.newest (physical kindBase w.key) = r₁.view.newest (physical kindBase w.key) := by
      refine applyLog_preserves (I := fun r => Shadows s.txnId w.key p r.view ∧
        r.view.newest (physical kindBase w.key) = r₁.view.newest (physical kindBase w.key)) hrun
          (hlog.and_forall hquiet) ?_ ⟨⟨_, hheld, rfl, rfl⟩, rfl⟩
      rintro r entry r' out ⟨hstart, hsame⟩ ⟨hspares, hstages⟩ happly
      obtain ⟨hend, hnewest⟩ := hstart.apply hk hp hspares happly
      exact ⟨hend, (hnewest hstages).trans hsame⟩
    exact (holdsIntent_congr hkept.2).mpr hheld

/-- A compare-and-set of the staged key and a row written to another key leave the intent as it was staged. -/
theorem staged_intent_kept_put : ∃ r₁ r₂,
    applyEntry plainHost freshReplica ⟨.txnStage (sampleStage (sampleTxn 1) [1]) ⟨2, 0⟩, []⟩ =
      some (r₁, .stage .staged) ∧ applyLog plainHost r₁
      (sampleLog [.cas sampleKey none [7] ⟨3, 0⟩, .put [0x62] [7] ⟨4, 0⟩]) = some r₂ ∧
    Shadows (sampleTxn 1) sampleKey none r₂.view := by
  obtain ⟨⟨r₁, out⟩, hstage, rfl, hrun⟩ : ∃ p ∈ applyEntry plainHost freshReplica
      ⟨.txnStage (sampleStage (sampleTxn 1) [1]) ⟨2, 0⟩, []⟩, p.2 = .stage .staged ∧
        (applyLog plainHost p.1 (sampleLog
        [.cas sampleKey none [7] ⟨3, 0⟩, .put [0x62] [7] ⟨4, 0⟩])).isSome := by decide +kernel
  obtain ⟨r₂, hrun⟩ := isSome_iff_exists.mp hrun
  have hnames : WellNamed (.txnStage (sampleStage (sampleTxn 1) [1]) ⟨2, 0⟩ : KvCommand Unit) := by
    refine ⟨?_, ?_⟩
    · rintro key ⟨⟩
      rename_i hmem
      obtain rfl := mem_singleton.mp hmem
      decide
    · rintro txnId key (⟨⟨⟩⟩ | ⟨⟨⟩⟩)
  have hfits : PayloadsFit plainHost freshReplica.view (sampleStage (sampleTxn 1) [1]) := by
    intro w hw payload hpayload p
    obtain rfl := mem_singleton.mp hw
    obtain rfl := Except.ok.inj (some.inj hpayload)
    have hempty : 0 < 256 ^ 4 := by decide
    refine ⟨sampleTxn_fits, hempty, hempty, ?_, hempty, by rintro _ ⟨⟩, by rintro _ ⟨⟩⟩
    rintro b ⟨⟩
    exact (by decide : 1 < 256 ^ 4)
  have hlog : Along plainHost (SparesIntent plainHost (sampleTxn 1) sampleKey) r₁
    (sampleLog [.cas sampleKey none [7] ⟨3, 0⟩, .put [0x62] [7] ⟨4, 0⟩]) := by
    refine ⟨⟨⟨by rintro key ⟨⟩; decide, by rintro txnId key (_ | ⟨⟨⟩⟩)⟩, by rintro ⟨⟩, ?_, by simp⟩, fun _ _ _ =>
      ⟨⟨⟨by rintro key ⟨⟩, by rintro txnId key (_ | ⟨⟨⟩⟩)⟩, by rintro ⟨⟩, ?_, by simp⟩, fun _ _ _ => trivial⟩⟩
    all_goals
      rintro ⟨record, keys, outcome, ts, r', hcmd, -⟩
      cases hcmd
  obtain ⟨w, -, -, payload, -, -, hshadows, -⟩ := staged_intent_kept
    (w := ⟨sampleKey, some [1], [], none, none, none⟩) (p := none) rfl (mem_singleton_self _) (by decide)
    (by rintro _ ⟨⟩) (by decide +kernel) hnames hfits (by rintro old ⟨⟩) hstage hrun hlog
  exact ⟨r₁, r₂, hstage, hrun, hshadows⟩

theorem staged_intent_overwritten : (applyReporting plainHost freshReplica (sampleLog [
      .txnStage (sampleStage (sampleTxn 1) [1]) ⟨2, 0⟩, .put sampleKey [7] ⟨3, 0⟩])).map (fun p =>
        (p.2, readEnvelope p.1.view (physical kindBase sampleKey))) =
    some ([.stage .staged, .silent], some (some (.committed [7]))) := by
  decide +kernel

end AnimusDb.Tablet
