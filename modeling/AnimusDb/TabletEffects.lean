import AnimusDb.TabletApply

/-! What an entry can merge. Every arm decides from the engine as its entry finds it, or as its own merges
have left it; `Writes` lists the merges that can follow, and every entry is a run of them. -/

open AnimusDb.Items List Option
open AnimusDb.Lsm (MemoryEngine MergeOp)
open AnimusDb.Lsm.MemoryEngine (Trace mergeAll_append)
open ByteCodec (Bytes)
open RustText (Text)

namespace AnimusDb.Tablet

variable {op : MergeOp} {ops : List MergeOp} {r : Replica}

namespace Replica

@[simp] theorem pending_flushPending : r.flushPending.pending = [] := by
  unfold flushPending
  split_ifs with h
  · exact h
  · rfl

@[simp] theorem flushPending_frame : r.flushPending.sealed = r.sealed ∧ r.flushPending.frozen = r.frozen ∧
    r.flushPending.committedCeiling = r.committedCeiling ∧ r.flushPending.maxAppliedTs = r.maxAppliedTs ∧
    r.flushPending.base = r.base := by
  unfold flushPending
  split_ifs <;> exact ⟨rfl, rfl, rfl, rfl, rfl⟩

theorem journal_flushPending : r.journal <+: r.flushPending.journal := by
  unfold flushPending
  split_ifs
  · exact prefix_refl _
  · exact prefix_append _ _

theorem engine_commit : (r.commit ops).engine = r.engine.mergeAll ops := by
  simp [engine, commit, mergeAll_append]

/-- A flush makes the queued merges durable, in their order. -/
@[simp] theorem engine_flushPending : r.flushPending.engine = r.view := by
  unfold flushPending
  split_ifs with h
  · simp [view, h]
  · change (r.commit r.pending).engine = r.view
    exact engine_commit

@[simp] theorem view_flushPending : r.flushPending.view = r.view := by
  rw [view, pending_flushPending, engine_flushPending]
  rfl

@[simp] theorem view_push : (r.push ops).view = r.view.mergeAll ops := mergeAll_append _ _ _

@[simp] theorem engine_push : (r.push ops).engine = r.engine := rfl

@[simp] theorem engine_merge : (r.merge op).engine = (r.engine.mergeSlot op).2 := engine_commit

@[simp] theorem pending_merge : (r.merge op).pending = r.pending := rfl

theorem view_eq_engine (h : r.pending = []) : r.view = r.engine := by
  rw [view, h]
  rfl

/-- A direct merge goes in front of what is queued. -/
theorem view_merge : (r.merge op).view = (r.engine.mergeSlot op).2.mergeAll r.pending := by
  rw [view, engine_merge, pending_merge]

theorem kept_of_length_le {n : Nat} (h : r.journal.length ≤ n) : r.kept n = r.engine := by
  rw [kept, take_of_length_le h]
  rfl

theorem kept_merge {n : Nat} (h : n ≤ r.journal.length) : (r.merge op).kept n = r.kept n := by
  simp only [kept, merge, commit]
  rw [take_append_of_le_length h]

/-- A flush is one call: a crash leaves the engine without the queue or with all of it. -/
theorem kept_flushPending {n : Nat} (h : r.journal.length ≤ n) :
    r.flushPending.kept n = r.engine ∨ r.flushPending.kept n = r.view := by
  rcases Nat.lt_or_ge n r.flushPending.journal.length with hlt | hge
  · left
    unfold flushPending at hlt ⊢
    split_ifs at hlt ⊢
    · omega
    · change (r.commit r.pending).kept n = r.engine
      rw [kept, commit, take_append_of_le_length (by simp [commit] at hlt; omega), take_of_length_le h]
      rfl
  · right
    rw [kept_of_length_le hge, engine_flushPending]

end Replica

variable {key : Bytes} {version : Nat}

variable {writes : List KindWrite} {changeLog : List (Bytes × Bytes)} {ordinal : Nat}

/-- A merge that materialises a row of a write set, or a change record. -/
inductive Derived (writes : List KindWrite) (version : Nat) : MergeOp → Prop
  | row {w : KindWrite} (hw : w ∈ writes) (hkind : allKinds.contains w.1.1 = true) :
      Derived writes version ⟨physical w.1.1 w.1.2, version, w.2.map encodeCommitted⟩
  | change (key value : Bytes) :
      Derived writes version ⟨physical kindChange key, version, some (encodeCommitted value)⟩

theorem derived_of_mem (h : op ∈ (materializeDerived writes changeLog version ordinal).1) :
    Derived writes version op := by
  rcases mem_append.mp h with hrow | hchange
  · obtain ⟨w, hw, heq⟩ := mem_filterMap.mp hrow
    split_ifs at heq with hkind
    cases heq
    exact .row hw hkind
  · obtain ⟨i, hi, rfl⟩ := mem_mapIdx.mp hchange
    exact .change _ _

theorem Derived.version_eq (h : Derived writes version op) : op.version = version := by
  cases h <;> rfl

/-- A row of the base kind is one of the set's own. -/
theorem Derived.base (h : Derived writes version op) (hkey : op.key = physical kindBase key) :
    ∃ w ∈ writes, w.1 = (kindBase, key) := by
  cases h with
  | row hw hkind =>
    obtain ⟨hkind, hkey⟩ := cons.inj hkey
    exact ⟨_, hw, Prod.ext hkind hkey⟩
  | change => exact absurd (cons.inj hkey).1 (by decide)

variable {decision : KindEvalDecision} {Cond : Type} {items : ItemLayer Cond} {e : KindEvalEntry Cond}

variable {old : Option Item} {storedVer : Option MrecVersion}
  {changeLog : Bytes × Bytes} {old' new' : Option Item} {newVer : Option MrecVersion}

theorem kindEvalApplied_base {new : Option Item} {ver : Option MrecVersion}
    (h : kindEvalApplied items e old new ver = .applied writes changeLog old' new' newVer) :
    ∀ w ∈ writes, w.1.1 = kindBase → w.1.2 = kindEvalBaseKey items e.pk e.sk := by
  injection h with hwrites
  subst hwrites
  intro w hw hkind
  rcases mem_cons.mp hw with rfl | hw
  · rfl
  · obtain ⟨lsi, -, hw⟩ := mem_flatMap.mp hw
    obtain ⟨value, hvalue⟩ := lsiWrites_key hw
    rw [hvalue] at hkind
    exact absurd (show kindLsi = kindBase from hkind) (by decide)

/-- A condition decides nothing but a refusal. -/
theorem checkCondition_refuses {condition : Option Cond} (h : checkCondition items condition old = some
    (some decision)) : decision = .conditionFailed ∨ ∃ code message, decision = .rejected code message := by
  unfold checkCondition at h
  split at h
  · cases h
  · split at h <;> cases h
    · exact .inl rfl
    · exact .inr ⟨_, _, rfl⟩

theorem localResult_refuses {op : KindEvalOp} (h : localResult op old = some (.error decision)) :
    ∃ code message, decision = .rejected code message := by
  unfold localResult at h
  split at h
  · cases h
  · cases h
  · split at h <;> cases h
    exact ⟨_, _, rfl⟩
  · cases h

/-- A write of this region is refused, or applies what its operation makes of the old item under the next stamp. -/
theorem evaluateLocal_cases (h : evaluateLocal items e old storedVer = some decision) :
    decision = .conditionFailed ∨ (∃ code message, decision = .rejected code message) ∨
      ∃ new, localResult e.op old = some (.ok new) ∧ decision = kindEvalApplied items e old new
          (e.schema.mrec.map fun m => MrecVersion.nextLocal storedVer m.wallMs m.regionId) := by
  obtain ⟨verdict, hverdict, h⟩ := bind_eq_some_iff.mp h
  cases verdict with
  | some refusal =>
    cases h
    exact (checkCondition_refuses hverdict).imp_right .inl
  | none =>
    obtain ⟨folded, hfolded, h⟩ := bind_eq_some_iff.mp h
    cases folded with
    | error refusal =>
      cases h
      exact .inr (.inl (localResult_refuses hfolded))
    | ok new => exact .inr (.inr ⟨new, hfolded, (some.inj h).symm⟩)

section

variable (h : evaluateKindEval items e old storedVer = some (.applied writes changeLog old' new' newVer))

include h

/-- A write that applies is a replicated record ahead of the stored stamp, or one of this region. -/
theorem evaluateKindEval_applied : (∃ item ver, e.op = .replicate item ver ∧ ver.supersedes storedVer = true ∧
      kindEvalApplied items e old item (some ver) = .applied writes changeLog old' new' newVer) ∨
    ∃ new, localResult e.op old = some (.ok new) ∧ kindEvalApplied items e old new
      (e.schema.mrec.map fun m => MrecVersion.nextLocal storedVer m.wallMs m.regionId) =
        .applied writes changeLog old' new' newVer := by
  unfold evaluateKindEval at h
  split at h
  · rename_i item ver hop
    split_ifs at h with hmrec hstale
    · cases h
    · cases h
    · exact .inl ⟨item, ver, hop, by simpa using hstale, some.inj h⟩
  · rcases evaluateLocal_cases h with h | ⟨code, message, h⟩ | ⟨new, hnew, h⟩
    · cases h
    · cases h
    · exact .inr ⟨new, hnew, h.symm⟩

/-- What an evaluated write derives has no other base row than that of its own key. -/
theorem evaluateKindEval_base : ∀ w ∈ writes, w.1.1 = kindBase → w.1.2 = kindEvalBaseKey items e.pk e.sk := by
  rcases evaluateKindEval_applied h with ⟨item, ver, -, -, happlied⟩ | ⟨new, -, happlied⟩ <;>
    exact kindEvalApplied_base happlied

end

def HoldsIntent (m : MemoryEngine) (key : Bytes) (i : Intent) : Prop :=
  readEnvelope m key = some (some (.intent i))

/-- A stage that passes its gates. -/
structure Accepted (s : TxnStage Cond) (m : MemoryEngine) (version : Nat) : Prop where
  behind : engineAhead s m version = some false
  undecided : alreadyDecided s m = false
  unblocked : blockedBy s m = some none
  unresolved : resurrectionAttempt s m = some false

/-- A resolve that the anchor's own record does not refuse finds its intent at a key. -/
structure Resolves (m : MemoryEngine) (txnId : TxnId) (recordKey : Bytes) (keys : List Bytes)
    (outcome : TxnOutcome) (key : Bytes) (i : Intent) (intentVersion : Nat) : Prop where
  named : key ∈ keys
  own : ownIntent m txnId key = some (some (i, intentVersion))
  agrees : outcomeMismatch (readRecordAt m (physical kindBase recordKey)) txnId outcome = false

def TxnStage.intent (s : TxnStage Cond) (payload : Payload) (prior : Option Bytes) : Intent :=
  ⟨s.txnId, s.recordKey, s.recordTable, payload.value, payload.kindWrites, payload.changeLog, .known prior⟩

/-- The record of an entry's transaction, if the entry may decide it. -/
def decides : KvCommand Cond → Option (TxnId × Bytes × HlcTimestamp × TxnStatus)
  | .txnCommit txnId recordKey ts | .txnCommitSealChecked txnId recordKey ts =>
    some (txnId, recordKey, ts, .committed ts)
  | .txnAbort txnId recordKey ts _ | .txnAbortSealChecked txnId recordKey ts _ =>
    some (txnId, recordKey, ts, .aborted)
  | _ => none

/-- The merges that a command may make on the engine `cur`, where `m` is the engine as its entry found it. -/
inductive Writes (host : Host Cond) (m : MemoryEngine) : KvCommand Cond → MemoryEngine → MergeOp → Prop
  | put {key value ts version cur} (hversion : pack ts = some version) :
      Writes host m (.put key value ts) cur ⟨physical kindBase key, version, some (encodeCommitted value)⟩
  | batch {puts ts version cur p} (hversion : pack ts = some version) (hmem : p ∈ puts) :
      Writes host m (.batch puts ts) cur ⟨physical kindBase p.1, version, some (encodeCommitted p.2)⟩
  | kindBatch {writes changeLog ts version cur op} (hversion : pack ts = some version)
      (hop : Derived writes version op) : Writes host m (.kindBatch writes changeLog ts) cur op
  | kindEval {e ts version cur writes op} (hversion : pack ts = some version)
      (hfree : ∀ i, ¬ HoldsIntent m (physical kindBase (kindEvalBaseKey host.items e.pk e.sk)) i)
      (hbase : ∀ w ∈ writes, w.1.1 = kindBase → w.1.2 = kindEvalBaseKey host.items e.pk e.sk)
      (hop : Derived writes version op) : Writes host m (.kindEval e ts) cur op
  | kindEvalBatch {entries e ts version cur writes op} (hversion : pack ts = some version) (hmem : e ∈ entries)
      (hfree : ∀ i, ¬ HoldsIntent m (physical kindBase (kindEvalBaseKey host.items e.pk e.sk)) i)
      (hbase : ∀ w ∈ writes, w.1.1 = kindBase → w.1.2 = kindEvalBaseKey host.items e.pk e.sk)
      (hop : Derived writes version op) : Writes host m (.kindEvalBatch entries ts) cur op
  | seed {rows ts cur row} (hmem : row ∈ rows) (hkind : allKinds.contains row.kind = true) :
      Writes host m (.seedBatch rows ts) cur ⟨physical row.kind row.key, row.version, row.value⟩
  | delete {key ts version cur} (hversion : pack ts = some version) :
      Writes host m (.delete key ts) cur ⟨physical kindBase key, version, none⟩
  | cas {key expected value ts version cur} (hversion : pack ts = some version)
      (hfree : ∀ i, ¬ HoldsIntent m (physical kindBase key) i) :
      Writes host m (.cas key expected value ts) cur ⟨physical kindBase key, version, some (encodeCommitted value)⟩
  | freeze {ts version cur} (hversion : pack ts = some version) :
      Writes host m (.freeze ts) cur (sealMarker host.tablet version ts)
  | forkSeal {splitKey children ts version cur} (hversion : pack ts = some version) :
      Writes host m (.splitTablet splitKey children ts) cur (sealMarker host.tablet version ts)
  | fork {splitKey children ts version cur voters} (hversion : pack ts = some version) :
      Writes host m (.splitTablet splitKey children ts) cur
      (splitMarker host.tablet version ⟨splitKey, children, voters, ts⟩)
  | ceiling {ts version cur} (hversion : pack ts = some version) :
      Writes host m (.readCeiling ts) cur ⟨ceilingMarkerKey host.tablet, version, some (encodeCeilingValue ts)⟩
  | stageIntent {s ts version cur w payload prior} (hversion : pack ts = some version)
      (hstage : Accepted s m version)
      (hmem : w ∈ s.writes) (hpayload : evaluateWrite host.items s m w = some (.ok payload))
      (hprior : stageIntentPrior cur (physical kindBase w.key) s.txnId = some prior) :
      Writes host m (.txnStage s ts) cur
        ⟨physical kindBase w.key, version, some (encodeIntent (s.intent payload prior) prior)⟩
  | stageMarker {s ts version cur key value} (hversion : pack ts = some version) :
      Writes host m (.txnStage s ts) cur ⟨physical kindChange key, version, some (encodeCommitted value)⟩
  | stageRecord {s ts version cur} (hversion : pack ts = some version) (hstage : Accepted s m version)
      (hanchor : s.isAnchor = true) : Writes host m (.txnStage s ts) cur
        ⟨physical kindBase s.recordKey, version, some (encodeRecord ⟨s.txnId, .pending, s.spans, ts⟩)⟩
  | decision {cmd txnId recordKey ts status version cur record}
      (hcmd : decides cmd = some (txnId, recordKey, ts, status))
      (hversion : pack ts = some version) (hrecord : readRecordAt m (physical kindBase recordKey) = some record)
      (hown : record.txnId = txnId) (hpending : record.status = .pending) : Writes host m cmd cur
        ⟨physical kindBase recordKey, version, some (encodeRecord { record with status := status })⟩
  | orphan {cmd txnId recordKey ts version cur createdTs}
      (hcmd : decides cmd = some (txnId, recordKey, ts, .aborted))
      (hversion : pack ts = some version) (hrecord : readRecordAt m (physical kindBase recordKey) = none) :
      Writes host m cmd cur ⟨physical kindBase recordKey, version,
        some (encodeRecord ⟨txnId, .aborted, [], createdTs⟩)⟩
  | resolveRow {txnId recordKey keys outcome ts version cur key i intentVersion value}
      (hversion : pack ts = some version)
      (hown : Resolves m txnId recordKey keys outcome key i intentVersion) :
      Writes host m (.txnResolve txnId recordKey keys outcome ts) cur ⟨physical kindBase key, version, value⟩
  | resolveDerived {txnId recordKey keys commitTs ts version cur key i intentVersion op}
      (hversion : pack ts = some version)
      (hown : Resolves m txnId recordKey keys (.committed commitTs) key i intentVersion)
      (hop : Derived i.kindWrites version op) :
      Writes host m (.txnResolve txnId recordKey keys (.committed commitTs) ts) cur op
  | resolveMarker {txnId recordKey keys outcome ts version cur key i intentVersion marker}
      (hversion : pack ts = some version) (hown : Resolves m txnId recordKey keys outcome key i intentVersion)
      (hmarker : resolvedMarkerKey key = some marker) :
      Writes host m (.txnResolve txnId recordKey keys outcome ts) cur
        ⟨physical kindBase marker, version, some (encodeResolvedMarker txnId)⟩
  | settle {entries ts version cur txnId recordKey record outcome} (hversion : pack ts = some version)
      (hmem : (txnId, recordKey) ∈ entries)
      (hrecord : readRecordAt cur (physical kindBase recordKey) = some record) (hown : record.txnId = txnId)
      (hdecided : record.status.decidedOutcome = some outcome) : Writes host m (.txnSettle entries ts) cur
        ⟨physical kindBase recordKey, version,
        some (encodeRecord ⟨txnId, .settled outcome ts, [], record.createdTs⟩)⟩
  | reap {entries ts version cur txnId recordKey record outcome settledTs} (hversion : pack ts = some version)
      (hmem : (txnId, recordKey) ∈ entries)
      (hrecord : readRecordAt m (physical kindBase recordKey) = some record) (hown : record.txnId = txnId)
      (hsettled : record.status = .settled outcome settledTs)
      (hage : txnSettledReapAge ≤ ts.wallMs - settledTs.wallMs) :
      Writes host m (.txnReap entries ts) cur ⟨physical kindBase recordKey, version, none⟩

variable {α β : Type} {f : β → α → Option β} {P : β → Prop} {l : List α} {b b' : β}

theorem foldlM_preserves (h : l.foldlM f b = some b') (hstep : ∀ a ∈ l, ∀ b b', P b → f b a = some b' → P b')
    (hb : P b) : P b' := by
  induction l generalizing b with
  | nil =>
    cases h
    exact hb
  | cons a l ih =>
    rw [foldlM_cons] at h
    obtain ⟨c, hc, h⟩ := bind_eq_some_iff.mp h
    exact ih h (fun a ha => hstep a (mem_cons_of_mem _ ha)) (hstep a mem_cons_self b c hb hc)

theorem foldlM_establishes {a : α} (h : l.foldlM f b = some b') (hmem : a ∈ l) (hset : ∀ b b',
    f b a = some b' → P b') (hkeep : ∀ a ∈ l, ∀ b b', P b → f b a = some b' → P b') : P b' := by
  induction l generalizing b with
  | nil => cases hmem
  | cons first l ih =>
    rw [foldlM_cons] at h
    obtain ⟨c, hc, hfold⟩ := bind_eq_some_iff.mp h
    have hrest := fun a ha => hkeep a (mem_cons_of_mem first ha)
    rcases mem_cons.mp hmem with rfl | hmem
    · exact foldlM_preserves hfold hrest (hset _ _ hc)
    · exact ih hfold hmem hrest

theorem anyM_false {g : α → Option Bool} (h : l.anyM g = some false) : ∀ a ∈ l, g a = some false := by
  induction l with
  | nil => simp
  | cons a l ih =>
    rw [anyM] at h
    obtain ⟨c, hc, h⟩ := bind_eq_some_iff.mp h
    cases c with
    | true => cases h
    | false =>
      exact forall_mem_cons.mpr ⟨hc, ih h⟩

theorem findSomeM_none {g : α → Option (Option β)} (h : l.findSomeM? g = some none) :
    ∀ a ∈ l, g a = some none := by
  induction l with
  | nil => simp
  | cons a l ih =>
    rw [findSomeM?] at h
    obtain ⟨c, hc, h⟩ := bind_eq_some_iff.mp h
    cases c with
    | some found => cases h
    | none =>
      exact forall_mem_cons.mpr ⟨hc, ih h⟩

theorem mem_zip_of_length {l' : List β} {a : α} (h : l.length = l'.length) (ha : a ∈ l) :
    ∃ c, (a, c) ∈ l.zip l' := by
  obtain ⟨i, hi, rfl⟩ := mem_iff_getElem.mp ha
  refine ⟨l'[i], mem_iff_getElem.mpr ⟨i, ?_, getElem_zip⟩⟩
  rw [length_zip]
  omega

theorem mapM_zip {g : α → Option β} {results : List β} (h : l.mapM g = some results) :
    l.length = results.length ∧ ∀ p ∈ l.zip results, g p.1 = some p.2 := by
  induction l generalizing results with
  | nil =>
    cases h
    simp
  | cons a l ih =>
    rw [mapM_cons] at h
    obtain ⟨c, hc, h⟩ := bind_eq_some_iff.mp h
    obtain ⟨rest, hrest, h⟩ := bind_eq_some_iff.mp h
    cases h
    obtain ⟨hlength, hzip⟩ := ih hrest
    exact ⟨congrArg (· + 1) hlength, forall_mem_cons.mpr ⟨hc, hzip⟩⟩

variable {m : MemoryEngine} {failure : StageOutcome} {host : Host Cond} {r' : Replica}

variable {ts : HlcTimestamp}

theorem pack_fits {version : Nat} (h : pack ts = some version) : ts.Fits := by
  unfold pack at h
  split_ifs at h with hfits
  exact ⟨hfits.2.trans (by decide), hfits.1.trans (by decide)⟩

def seals : KvCommand Cond → Bool
  | .freeze _ | .splitTablet _ _ _ => true
  | _ => false

def raisesCeiling : KvCommand Cond → Bool
  | .readCeiling _ => true
  | _ => false

/-- From one replica to the next by merges that the command may make. The storage calls come after those made
before, and a crash among them leaves the engine as it was or on the way. -/
structure Effect (host : Host Cond) (cmd : KvCommand Cond) (r r' : Replica) : Prop where
  base : r'.base = r.base
  calls : r.journal <+: r'.journal
  view : Trace (Writes host r.view cmd) r.view r'.view
  kept : ∀ n, r.journal.length ≤ n → r'.kept n = r.engine ∨ Trace (Writes host r.view cmd) r.view (r'.kept n)
  queued : ∀ op ∈ r'.pending, op ∈ r.pending ∨ ∃ cur, Writes host r.view cmd cur op
  flags : seals cmd = false → r'.sealed = r.sealed ∧ r'.frozen = r.frozen
  ceiling : raisesCeiling cmd = false → r'.committedCeiling = r.committedCeiling
  clock : ∀ last, r.maxAppliedTs = some last → ∃ last', r'.maxAppliedTs = some last' ∧ last ≤ last'

variable {cmd : KvCommand Cond}

namespace Effect

variable {b : Replica}

theorem refl (cmd : KvCommand Cond) (r : Replica) : Effect host cmd r r where
  base := rfl
  calls := prefix_refl _
  view := .nil _
  kept _ hn := .inl (Replica.kept_of_length_le hn)
  queued _ := .inl
  flags _ := ⟨rfl, rfl⟩
  ceiling _ := rfl
  clock last hlast := ⟨last, hlast, le_rfl⟩

theorem flush (cmd : KvCommand Cond) (r : Replica) : Effect host cmd r r.flushPending where
  base := by simp
  calls := Replica.journal_flushPending
  view := by
    rw [Replica.view_flushPending]
    exact .nil _
  kept n hn := by
    rcases Replica.kept_flushPending hn with h | h
    · exact .inl h
    · rw [h]
      exact .inr (.nil _)
  queued op hop := by
    rw [Replica.pending_flushPending] at hop
    cases hop
  flags _ := by simp
  ceiling _ := by simp
  clock last hlast := ⟨last, by simpa using hlast, le_rfl⟩

theorem push (h : Effect host cmd r b) (hops : ∀ op ∈ ops, ∀ cur, Writes host r.view cmd cur op) :
    Effect host cmd r (b.push ops) := by
  refine { h with
    view := ?_
    queued := forall_mem_append.mpr ⟨h.queued, fun op hop => .inr ⟨r.view, hops op hop r.view⟩⟩ }
  rw [Replica.view_push]
  exact h.view.trans (.of_forall _ hops)

theorem merge (h : Effect host cmd r b) (hpending : b.pending = []) (hop : Writes host r.view cmd b.view op) :
    Effect host cmd r (b.merge op) := by
  have hview : Trace (Writes host r.view cmd) r.view (b.merge op).engine := by
    rw [Replica.engine_merge, ← Replica.view_eq_engine hpending]
    exact h.view.trans (.single hop)
  refine { h with calls := h.calls.trans (prefix_append _ _), view := ?_, kept := fun n hn => ?_ }
  · rwa [Replica.view_eq_engine (r := b.merge op) hpending]
  · rcases Nat.lt_or_ge b.journal.length n with hlt | hle
    · rw [Replica.kept_of_length_le (by simpa [Replica.merge, Replica.commit] using hlt)]
      exact .inr hview
    · rw [Replica.kept_merge hle]
      exact h.kept n hn

theorem flushMerge (hop : Writes host r.view cmd r.view op) : Effect host cmd r (r.flushPending.merge op) :=
  (flush cmd r).merge Replica.pending_flushPending (by rwa [Replica.view_flushPending])

theorem latch (h : Effect host cmd r b) (hcmd : seals cmd = true) (ts : HlcTimestamp) :
    Effect host cmd r (b.latch ts) := { h with flags := fun hnot => absurd (hcmd.symm.trans hnot) nofun }

/-- An arm that does nothing under its gate, and packs its timestamp otherwise. -/
theorem gated {p : Prop} [Decidable p] {arm : Nat → Replica}
    (h : (if p then some r else (pack ts).map arm) = some r')
    (harm : ∀ version, pack ts = some version → Effect host cmd r (arm version)) : Effect host cmd r r' := by
  split_ifs at h
  · cases h
    exact .refl _ _
  · obtain ⟨version, hversion, rfl⟩ := map_eq_some_iff.mp h
    exact harm version hversion

end Effect

theorem applyCas_effect {value : Bytes} {expected : Option Bytes} {swapped : Bool}
    (h : applyCas r key expected value ts = some (r', swapped)) :
    Effect host (.cas key expected value ts) r r' := by
  unfold applyCas at h
  dsimp only at h
  rw [Replica.engine_flushPending] at h
  split_ifs at h
  · cases h
    exact .flush _ _
  · obtain ⟨row, hrow, h⟩ := bind_eq_some_iff.mp h
    split_ifs at h with hswap
    · obtain ⟨version, hversion, h⟩ := bind_eq_some_iff.mp h
      cases h
      refine .flushMerge (.cas hversion fun i hi => ?_)
      rw [some.inj (hrow.symm.trans hi)] at hswap
      cases hswap
    · cases h
      exact .flush _ _

theorem applyKindEval_effect {out : KindBatchOutcome} {result : Option KindEvalResult}
    (h : applyKindEval host.items r e ts = some (r', out, result)) : Effect host (.kindEval e ts) r r' := by
  have hnone {out' : KindBatchOutcome} {result' : Option KindEvalResult}
      (h : some (r.flushPending, out', result') = some (r', out, result)) :
      Effect host (.kindEval e ts) r r' := by
    cases h
    exact .flush _ _
  unfold applyKindEval at h
  dsimp only at h
  rw [Replica.engine_flushPending] at h
  split at h
  · exact hnone h
  · obtain ⟨version, hversion, h⟩ := bind_eq_some_iff.mp h
    obtain ⟨row, hrow, h⟩ := bind_eq_some_iff.mp h
    split at h
    · exact hnone h
    · split at h
      · exact hnone h
      · rename_i hfree
        obtain ⟨⟨old, storedVer⟩, -, h⟩ := bind_eq_some_iff.mp h
        obtain ⟨decision, hdecision, h⟩ := bind_eq_some_iff.mp h
        cases decision with
        | conditionFailed => exact hnone h
        | rejected => exact hnone h
        | superseded => exact hnone h
        | applied writes changeLog old' new' newVer =>
          cases h
          refine (Effect.flush _ _).push fun op hop cur => .kindEval hversion (fun i hi => ?_)
            (evaluateKindEval_base hdecision) (derived_of_mem hop)
          exact hfree i (some.inj (hrow.symm.trans hi))

variable {entries : List (KindEvalEntry Cond)} {st st' : EvalBatchState}

/-- An item of the batch whose key held no intent. -/
def Evaluable (items : ItemLayer Cond) (m : MemoryEngine) (e : KindEvalEntry Cond) : Prop :=
  ∀ i, ¬ HoldsIntent m (physical kindBase (kindEvalBaseKey items e.pk e.sk)) i

/-- The images kept so far are of keys without an intent, and the merges come from such items. -/
structure EvalBatchKept (items : ItemLayer Cond) (m : MemoryEngine) (version : Nat)
    (entries : List (KindEvalEntry Cond)) (st : EvalBatchState) : Prop where
  overlay : ∀ p ∈ st.overlay, ∀ i, ¬ HoldsIntent m (physical kindBase p.1) i
  ops : ∀ op ∈ st.ops, ∃ e ∈ entries, Evaluable items m e ∧ ∃ writes : List KindWrite,
    (∀ w ∈ writes, w.1.1 = kindBase → w.1.2 = kindEvalBaseKey items e.pk e.sk) ∧ Derived writes version op

theorem EvalBatchKept.step (hkept : EvalBatchKept items m version entries st)
    (hmem : e ∈ entries) (h : evalBatchItem items m version st e = some st') :
    EvalBatchKept items m version entries st' := by
  have hreport {result : KindEvalItemResult} (h : some { st with results := st.results ++ [result] } = some st') :
      EvalBatchKept items m version entries st' := by
    cases h
    exact ⟨hkept.overlay, hkept.ops⟩
  unfold evalBatchItem at h
  obtain ⟨current, hcurrent, h⟩ := bind_eq_some_iff.mp h
  cases current with
  | none => exact hreport h
  | some current =>
    have hfree : Evaluable items m e := by
      intro i hi
      unfold batchImage at hcurrent
      cases hlookup : st.overlay.lookup (kindEvalBaseKey items e.pk e.sk) with
      | some cached =>
        obtain ⟨before, after, hsplit, -⟩ := lookup_eq_some_iff.mp hlookup
        exact hkept.overlay _ (hsplit ▸ mem_append_right before mem_cons_self) i hi
      | none =>
        rw [hlookup] at hcurrent
        obtain ⟨row, hrow, hcurrent⟩ := bind_eq_some_iff.mp hcurrent
        rw [some.inj (hrow.symm.trans hi)] at hcurrent
        cases hcurrent
    obtain ⟨decision, hdecision, h⟩ := bind_eq_some_iff.mp h
    cases decision with
    | conditionFailed => exact hreport h
    | rejected => exact hreport h
    | superseded => exact hreport h
    | applied writes changeLog old' new' newVer =>
      cases h
      refine ⟨forall_mem_cons.mpr ⟨hfree, hkept.overlay⟩, forall_mem_append.mpr ⟨hkept.ops, fun op hop => ?_⟩⟩
      exact ⟨e, hmem, hfree, writes, evaluateKindEval_base hdecision, derived_of_mem hop⟩

theorem mem_of_mem_keepLast {op : MergeOp} {ops : List MergeOp} (h : op ∈ keepLast ops) : op ∈ ops := by
  induction ops with
  | nil => exact h
  | cons first rest ih =>
    rw [keepLast] at h
    split_ifs at h
    · exact mem_cons_of_mem _ (ih h)
    · rcases mem_cons.mp h with rfl | h
      · exact mem_cons_self
      · exact mem_cons_of_mem _ (ih h)

theorem applyKindEvalBatch_effect {out : KindBatchOutcome} {results : List KindEvalItemResult}
    (h : applyKindEvalBatch host.items r entries ts = some (r', out, results)) :
    Effect host (.kindEvalBatch entries ts) r r' := by
  unfold applyKindEvalBatch at h
  dsimp only at h
  rw [Replica.engine_flushPending] at h
  split at h
  · cases h
    exact .flush _ _
  · obtain ⟨version, hversion, h⟩ := bind_eq_some_iff.mp h
    split_ifs at h
    · cases h
      exact .flush _ _
    · obtain ⟨st, hst, h⟩ := bind_eq_some_iff.mp h
      cases h
      have hkept : EvalBatchKept host.items r.view version entries st :=
        foldlM_preserves hst (fun e he st st' hst h => hst.step he h) ⟨by simp, by simp⟩
      refine (Effect.flush _ _).push fun op hop cur => ?_
      obtain ⟨e, hmem, hfree, writes, hbase, hop⟩ := hkept.ops op (mem_of_mem_keepLast hop)
      exact .kindEvalBatch hversion hmem hfree hbase hop

variable {ws : List (TxnWrite Cond)}

variable {s : TxnStage Cond} {payloads : List Payload}

theorem evaluateWrite_ne_staged {w : TxnWrite Cond}
    (h : evaluateWrite items s m w = some (.error failure)) : failure ≠ .staged := by
  unfold evaluateWrite at h
  split at h
  · cases h
  · obtain ⟨row, -, h⟩ := bind_eq_some_iff.mp h
    split at h
    · split_ifs at h
      cases h
    · obtain ⟨⟨old, storedVer⟩, -, h⟩ := bind_eq_some_iff.mp h
      dsimp only at h
      split_ifs at h
      · cases h
        exact nofun
      · obtain ⟨decision, -, h⟩ := bind_eq_some_iff.mp h
        cases decision <;> cases h <;> exact nofun

theorem evaluateWrites_ne_staged (h : evaluateWrites items s m ws = some (.error failure)) :
    failure ≠ .staged := by
  induction ws with
  | nil => cases h
  | cons w ws ih =>
    obtain ⟨first, hfirst, h⟩ := bind_eq_some_iff.mp h
    cases first with
    | error failure' =>
      cases h
      exact evaluateWrite_ne_staged hfirst
    | ok payload =>
      obtain ⟨rest, hrest, h⟩ := bind_eq_some_iff.mp h
      cases rest with
      | error failure' =>
        cases h
        exact ih hrest
      | ok payloads => cases h

theorem evaluateWrites_zip (h : evaluateWrites items s m ws = some (.ok payloads)) :
    ws.length = payloads.length ∧ ∀ p ∈ ws.zip payloads, evaluateWrite items s m p.1 = some (.ok p.2) := by
  induction ws generalizing payloads with
  | nil =>
    cases h
    simp
  | cons w ws ih =>
    obtain ⟨first, hfirst, h⟩ := bind_eq_some_iff.mp h
    cases first with
    | error failure => cases h
    | ok payload =>
      obtain ⟨rest, hrest, h⟩ := bind_eq_some_iff.mp h
      cases rest with
      | error failure => cases h
      | ok payloads =>
        cases h
        obtain ⟨hlength, hzip⟩ := ih hrest
        exact ⟨congrArg (· + 1) hlength, forall_mem_cons.mpr ⟨hfirst, hzip⟩⟩

/-- A stage does nothing but flush, unless all its gates open and every write evaluates. -/
theorem applyTxnStage_cases {out : StageOutcome} (h : applyTxnStage host.items s r ts = some (r', out)) :
    (r' = r.flushPending ∧ out ≠ .staged) ∨ out = .staged ∧
    ((∀ w ∈ s.writes, isSealed r.sealed w.key = false) ∧
        (s.isAnchor = true → isSealed r.sealed s.recordKey = false)) ∧
        ∃ version payloads, pack ts = some version ∧
      Accepted s r.view version ∧ evaluateWrites host.items s r.view s.writes = some (.ok payloads) ∧
        stageAll s version ts payloads r.flushPending = some r' := by
  unfold applyTxnStage at h
  dsimp only at h
  rw [Replica.engine_flushPending] at h
  obtain ⟨version, hversion, h⟩ := bind_eq_some_iff.mp h
  obtain ⟨ahead, hahead, h⟩ := bind_eq_some_iff.mp h
  obtain ⟨blocked, hblocked, h⟩ := bind_eq_some_iff.mp h
  obtain ⟨resurrection, hresurrection, h⟩ := bind_eq_some_iff.mp h
  have hnone {out' : StageOutcome} (h : some (r.flushPending, out') = some (r', out))
      (hout : out' ≠ .staged) : r' = r.flushPending ∧ out ≠ .staged := by
    cases h
    exact ⟨rfl, hout⟩
  split at h
  · exact .inl (hnone h nofun)
  rename_i hgates
  split at h
  · exact .inl (hnone h nofun)
  split at h
  · exact .inl (hnone h nofun)
  rename_i hfence
  simp only [Bool.or_eq_true, not_or, Bool.not_eq_true] at hgates
  simp only [Bool.not_eq_true', Bool.not_eq_false, Bool.and_eq_true] at hfence
  obtain ⟨failure, -, h⟩ := bind_eq_some_iff.mp h
  cases failure with
  | some key => exact .inl (hnone h nofun)
  | none =>
    obtain ⟨evaluated, hevaluated, h⟩ := bind_eq_some_iff.mp h
    cases evaluated with
    | error failure => exact .inl (hnone h (evaluateWrites_ne_staged hevaluated))
    | ok payloads =>
      obtain ⟨staged, hstaged, heq⟩ := map_eq_some_iff.mp h
      cases heq
      have hresurrection : resurrectionAttempt s r.view = some false := by
        rw [hresurrection]
        exact congrArg some hfence.1.1.1.1.2
      have hopen : (∀ w ∈ s.writes, isSealed r.sealed w.key = false) ∧
          (s.isAnchor = true → isSealed r.sealed s.recordKey = false) := by
        simpa [or_iff_not_imp_left] using And.intro hfence.1.2 hfence.2
      exact .inr ⟨rfl, hopen, version, payloads, hversion,
        ⟨hgates.2 ▸ hahead, hgates.1, hblocked, hresurrection⟩, hevaluated, hstaged⟩

theorem applyTxnStage_effect {out : StageOutcome} (h : applyTxnStage host.items s r ts = some (r', out)) :
    Effect host (.txnStage s ts) r r' := by
  rcases applyTxnStage_cases h with ⟨rfl, -⟩ | ⟨-, -, version, payloads, hversion, haccepted, hpayloads, hstaged⟩
  · exact .flush _ _
  obtain ⟨staged, hintents, hstaged⟩ := bind_eq_some_iff.mp hstaged
  -- the intents are merged one by one, each over what the ones before it left
  have hkept : staged.pending = [] ∧ Effect host (.txnStage s ts) r staged := by
    refine foldlM_preserves (P := fun b => b.pending = [] ∧ Effect host (.txnStage s ts) r b) hintents ?_
      ⟨Replica.pending_flushPending, .flush _ _⟩
    rintro ⟨w, payload⟩ hmem b b' ⟨hpending, heffect⟩ hstep
    obtain ⟨prior, hprior, rfl⟩ := map_eq_some_iff.mp hstep
    rw [← Replica.view_eq_engine hpending] at hprior
    exact ⟨hpending, heffect.merge hpending (.stageIntent hversion haccepted (of_mem_zip hmem).1
      ((evaluateWrites_zip hpayloads).2 _ hmem) hprior)⟩
  obtain ⟨hpending, heffect⟩ := hkept
  have hmarkers : ∀ op ∈ (materializeDerived [] (s.writes.filterMap (·.stageMarker)) version 0).1, ∀ cur,
      Writes host r.view (.txnStage s ts) cur op := by
    intro op hop cur
    cases derived_of_mem hop with
    | row hw => cases hw
    | change key value => exact .stageMarker hversion
  split_ifs at hstaged with hanchor
  · -- the record is merged in front of the queued markers
    cases hstaged
    exact (heffect.merge hpending (.stageRecord hversion haccepted hanchor)).push hmarkers
  · cases hstaged
    exact heffect.push hmarkers

variable {txnId : TxnId} {recordKey : Bytes}

theorem applyTxnCommit_effect (hcmd : decides cmd = some (txnId, recordKey, ts, .committed ts))
    (h : applyTxnCommit r txnId recordKey ts = some r') : Effect host cmd r r' := by
  unfold applyTxnCommit at h
  dsimp only at h
  rw [Replica.engine_flushPending] at h
  split at h
  · cases h
    exact .flush _ _
  · rename_i record hrecord
    split_ifs at h with hown hpending
    · obtain ⟨version, hversion, rfl⟩ := map_eq_some_iff.mp h
      exact .flushMerge (.decision hcmd hversion hrecord (not_not.mp hown) hpending)
    · cases h
      exact .flush _ _

theorem applyTxnAbort_effect {orphan : Option HlcTimestamp}
    (hcmd : decides cmd = some (txnId, recordKey, ts, .aborted))
    (h : applyTxnAbort r txnId recordKey ts orphan = some r') : Effect host cmd r r' := by
  unfold applyTxnAbort at h
  dsimp only at h
  rw [Replica.engine_flushPending] at h
  split at h
  · rename_i hrecord
    split at h
    · cases h
      exact .flush _ _
    · obtain ⟨version, hversion, rfl⟩ := map_eq_some_iff.mp h
      exact .flushMerge (.orphan hcmd hversion hrecord)
  · rename_i record hrecord
    split_ifs at h with hown hpending
    · obtain ⟨version, hversion, rfl⟩ := map_eq_some_iff.mp h
      exact .flushMerge (.decision hcmd hversion hrecord (not_not.mp hown) hpending)
    · cases h
      exact .flush _ _

variable {entries : List (TxnId × Bytes)}

theorem applyTxnSettle_effect (h : applyTxnSettle r entries ts = some r') :
    Effect host (.txnSettle entries ts) r r' := by
  refine (foldlM_preserves (P := fun b => b.pending = [] ∧ Effect host (.txnSettle entries ts) r b) h ?_
    ⟨Replica.pending_flushPending, .flush _ _⟩).2
  rintro ⟨txnId, recordKey⟩ hmem b b' ⟨hpending, heffect⟩ hstep
  have hsame (h : some b = some b') : b'.pending = [] ∧ Effect host (.txnSettle entries ts) r b' := by
    cases h
    exact ⟨hpending, heffect⟩
  unfold settleOne at hstep
  dsimp only at hstep
  rw [← Replica.view_eq_engine hpending] at hstep
  split at hstep
  · exact hsame hstep
  split at hstep
  · exact hsame hstep
  rename_i record hrecord
  split at hstep
  · exact hsame hstep
  rename_i hown
  have hsettle {outcome : TxnOutcome} (hdecided : record.status.decidedOutcome = some outcome)
      (hstep : settleOne.settle ts (txnId, recordKey) b record outcome = some b') :
      b'.pending = [] ∧ Effect host (.txnSettle entries ts) r b' := by
    obtain ⟨version, hversion, rfl⟩ := map_eq_some_iff.mp hstep
    exact ⟨hpending, heffect.merge hpending (.settle hversion hmem hrecord (not_not.mp hown) hdecided)⟩
  split at hstep
  · exact hsame hstep
  · exact hsame hstep
  · rename_i commitTs hstatus
    exact hsettle (by rw [hstatus]; rfl) hstep
  · rename_i hstatus
    exact hsettle (by rw [hstatus]; rfl) hstep

theorem applyTxnReap_effect (h : applyTxnReap r entries ts = some r') :
    Effect host (.txnReap entries ts) r r' := by
  refine (foldlM_preserves (P := fun b => b.engine = r.view ∧ Effect host (.txnReap entries ts) r b) h ?_
    ⟨Replica.engine_flushPending, .flush _ _⟩).2
  rintro ⟨txnId, recordKey⟩ hmem b b' ⟨hengine, heffect⟩ hstep
  have hsame (h : some b = some b') : b'.engine = r.view ∧ Effect host (.txnReap entries ts) r b' := by
    cases h
    exact ⟨hengine, heffect⟩
  unfold reapOne at hstep
  dsimp only at hstep
  rw [hengine] at hstep
  split at hstep
  · exact hsame hstep
  split at hstep
  · exact hsame hstep
  rename_i record hrecord
  split at hstep
  · rename_i outcome settledTs hsettled
    split at hstep
    · rename_i hold
      obtain ⟨version, hversion, rfl⟩ := map_eq_some_iff.mp hstep
      refine ⟨hengine, heffect.push fun op hop cur => ?_⟩
      obtain rfl := mem_singleton.mp hop
      exact .reap hversion hmem hrecord hold.1 hsettled hold.2
    · exact hsame hstep
  · exact hsame hstep

variable {keys : List Bytes} {outcome : TxnOutcome}

theorem resolveKey_writes {acc acc' : List MergeOp × Nat} {p : Bytes × Option (Intent × Nat)}
    (hversion : pack ts = some version) (hkey : p.1 ∈ keys) (hown : ownIntent r.view txnId p.1 = some p.2)
    (hagrees : outcomeMismatch (readRecordAt r.view (physical kindBase recordKey)) txnId outcome = false)
    (hacc : ∀ op ∈ acc.1, ∀ cur, Writes host r.view (.txnResolve txnId recordKey keys outcome ts) cur op)
    (h : resolveKey r.view txnId outcome version acc p = some acc') :
    ∀ op ∈ acc'.1, ∀ cur, Writes host r.view (.txnResolve txnId recordKey keys outcome ts) cur op := by
  obtain ⟨key, found⟩ := p
  cases found with
  | none =>
    cases h
    exact hacc
  | some found =>
    obtain ⟨i, intentVersion⟩ := found
    have hresolves : Resolves r.view txnId recordKey keys outcome key i intentVersion := ⟨hkey, hown, hagrees⟩
    obtain ⟨marker, hmarker, h⟩ := bind_eq_some_iff.mp h
    cases h
    intro op hop cur
    rcases mem_append.mp hop with hop | hop
    · rcases mem_append.mp hop with hop | hop
      · exact hacc op hop cur
      · cases outcome with
        | committed commitTs =>
          rcases mem_cons.mp hop with rfl | hop
          · exact .resolveRow hversion hresolves
          · exact .resolveDerived hversion hresolves (derived_of_mem hop)
        | aborted =>
          obtain rfl := mem_singleton.mp hop
          exact .resolveRow hversion hresolves
    · obtain rfl := mem_singleton.mp hop
      exact .resolveMarker hversion hresolves hmarker

theorem resolved_writes {resolved : List (Option (Intent × Nat))} {acc : List MergeOp × Nat}
    (hversion : pack ts = some version) (hresolved : keys.mapM (ownIntent r.view txnId) = some resolved)
    (hagrees : outcomeMismatch (readRecordAt r.view (physical kindBase recordKey)) txnId outcome = false)
    (hacc : (keys.zip resolved).foldlM (resolveKey r.view txnId outcome version) ([], 0) = some acc) :
    ∀ op ∈ acc.1, ∀ cur, Writes host r.view (.txnResolve txnId recordKey keys outcome ts) cur op := by
  refine foldlM_preserves (P := fun acc => ∀ op ∈ acc.1, ∀ cur,
    Writes host r.view (.txnResolve txnId recordKey keys outcome ts) cur op) hacc ?_ (by simp)
  intro p hp acc acc' hacc hstep
  exact resolveKey_writes hversion (of_mem_zip hp).1 ((mapM_zip hresolved).2 p hp) hagrees hacc hstep

variable {out : ResolveOutcome}

/-- A resolve does nothing but flush, unless its record agrees and no key is sealed. -/
theorem applyTxnResolve_cases (h : applyTxnResolve r txnId recordKey keys outcome ts = some (r', out)) :
    (r' = r.flushPending ∧ out ≠ .resolved) ∨ out = .resolved ∧
      outcomeMismatch (readRecordAt r.view (physical kindBase recordKey)) txnId outcome = false ∧
        (∀ key ∈ keys, isSealed r.sealed key = false) ∧ ∃ version resolved acc, pack ts = some version ∧
        keys.mapM (ownIntent r.view txnId) = some resolved ∧
          (keys.zip resolved).foldlM (resolveKey r.view txnId outcome version) ([], 0) = some acc ∧
            r' = r.flushPending.push acc.1 := by
  unfold applyTxnResolve at h
  dsimp only at h
  rw [Replica.engine_flushPending] at h
  obtain ⟨resolved, hresolved, h⟩ := bind_eq_some_iff.mp h
  obtain ⟨version, hversion, h⟩ := bind_eq_some_iff.mp h
  split at h
  · cases h
    exact .inl ⟨rfl, nofun⟩
  rename_i hagrees
  split at h
  · cases h
    exact .inl ⟨rfl, nofun⟩
  rename_i hfence
  obtain ⟨acc, hacc, h⟩ := bind_eq_some_iff.mp h
  cases h
  simp only [Bool.not_eq_true', Bool.not_eq_false, Bool.and_eq_true] at hfence
  exact .inr ⟨rfl, Bool.not_eq_true _ ▸ hagrees, by simpa using hfence.1, version, resolved, acc, hversion,
    hresolved, hacc, rfl⟩

variable {entry : LogEntry Cond}

variable {out : ApplyOutcome}

theorem of_silent {arm : Option Replica} (h : arm.map (·, ApplyOutcome.silent) = some (r', out)) :
    arm = some r' := by
  obtain ⟨r'', harm, heq⟩ := map_eq_some_iff.mp h
  cases heq
  exact harm

theorem of_reported {α : Type} {report : α → ApplyOutcome} {arm : Option (Replica × α)}
    (h : (arm.map fun p => (p.1, report p.2)) = some (r', out)) :
    ∃ a, arm = some (r', a) ∧ report a = out := by
  obtain ⟨⟨r'', a⟩, harm, heq⟩ := map_eq_some_iff.mp h
  cases heq
  exact ⟨a, harm, rfl⟩

theorem applyCommand_effect {voters : List Text} (h : applyCommand host voters r cmd = some (r', out)) :
    Effect host cmd r r' := by
  cases cmd with
  | put key value ts =>
    exact .gated (of_silent h) fun _ hversion =>
      (Effect.refl _ _).push (by simpa using fun _ => .put hversion)
  | delete key ts =>
    exact .gated (of_silent h) fun _ hversion =>
      (Effect.refl _ _).push (by simpa using fun _ => .delete hversion)
  | freeze ts =>
    exact .gated (of_silent h) fun _ hversion => (Effect.flushMerge (.freeze hversion)).latch rfl ts
  | splitTablet splitKey children ts =>
    refine .gated (of_silent h) fun _ hversion =>
      ((Effect.flushMerge (.forkSeal hversion)).latch rfl ts).merge ?_ (.fork hversion)
    exact Replica.pending_flushPending
  | readCeiling ts =>
    obtain ⟨version, hversion, rfl⟩ := map_eq_some_iff.mp (of_silent h)
    have heffect : Effect host (.readCeiling ts) { r with committedCeiling := max r.committedCeiling version } _ :=
      .flushMerge (.ceiling hversion)
    exact { heffect with ceiling := nofun }
  | batch puts ts =>
    replace h := of_silent h
    unfold applyBatch at h
    split_ifs at h
    · obtain ⟨version, hversion, rfl⟩ := map_eq_some_iff.mp h
      refine (Effect.refl _ _).push fun op hop cur => ?_
      obtain ⟨p, hp, rfl⟩ := mem_map.mp hop
      exact .batch hversion hp
    · cases h
      exact .refl _ _
  | kindBatch writes changeLog ts =>
    obtain ⟨_, h, -⟩ := of_reported h
    unfold applyKindBatch at h
    dsimp only at h
    split at h
    · cases h
      exact .refl _ _
    split_ifs at h
    · cases h
      exact .refl _ _
    · obtain ⟨version, hversion, heq⟩ := map_eq_some_iff.mp h
      cases heq
      exact (Effect.refl _ _).push fun op hop cur => .kindBatch hversion (derived_of_mem hop)
  | kindEval e ts =>
    obtain ⟨⟨_, _, _⟩, harm, heq⟩ := map_eq_some_iff.mp h
    cases heq
    exact applyKindEval_effect harm
  | kindEvalBatch entries ts =>
    obtain ⟨⟨_, _, _⟩, harm, heq⟩ := map_eq_some_iff.mp h
    cases heq
    exact applyKindEvalBatch_effect harm
  | seedBatch rows ts =>
    cases h
    unfold applySeedBatch
    split_ifs
    · refine (Effect.refl _ _).push fun op hop cur => ?_
      obtain ⟨row, hrow, heq⟩ := mem_filterMap.mp hop
      split_ifs at heq with hkind
      cases heq
      exact .seed hrow hkind
    · exact .refl _ _
  | cas key expected value ts =>
    obtain ⟨_, harm, -⟩ := of_reported h
    exact applyCas_effect harm
  | txnStage stage ts =>
    obtain ⟨_, harm, -⟩ := of_reported h
    exact applyTxnStage_effect harm
  | txnCommit txnId recordKey ts => exact applyTxnCommit_effect rfl (of_silent h)
  | txnAbort txnId recordKey ts orphan => exact applyTxnAbort_effect rfl (of_silent h)
  | txnCommitSealChecked txnId recordKey ts =>
    rw [applyCommand] at h
    split_ifs at h
    · cases h
      exact .refl _ _
    · exact applyTxnCommit_effect rfl (of_silent h)
  | txnAbortSealChecked txnId recordKey ts orphan =>
    rw [applyCommand] at h
    split_ifs at h
    · cases h
      exact .refl _ _
    · exact applyTxnAbort_effect rfl (of_silent h)
  | txnResolve txnId recordKey keys outcome ts =>
    obtain ⟨_, harm, -⟩ := of_reported h
    rcases applyTxnResolve_cases harm with ⟨rfl, -⟩ | ⟨-, hagrees, -, version, resolved, acc, hversion,
      hresolved, hacc, rfl⟩
    · exact .flush _ _
    · exact (Effect.flush _ _).push (resolved_writes hversion hresolved hagrees hacc)
  | txnSettle entries ts => exact applyTxnSettle_effect (of_silent h)
  | txnReap entries ts => exact applyTxnReap_effect (of_silent h)
  | noOp =>
    cases h
    exact .refl _ _

/-- The timestamp check changes nothing but the last timestamp, which it raises. -/
theorem assertTsMonotonic_eq {ts : Option HlcTimestamp} (h : assertTsMonotonic r ts = some r') :
    ∃ clock, r' = { r with maxAppliedTs := clock } ∧
      ∀ last, r.maxAppliedTs = some last → ∃ last', clock = some last' ∧ last ≤ last' := by
  unfold assertTsMonotonic at h
  split at h
  · exact ⟨r.maxAppliedTs, (some.inj h).symm, fun last hlast => ⟨last, hlast, le_rfl⟩⟩
  · rename_i ts
    split_ifs at h with hlater
    refine ⟨some ts, (some.inj h).symm, fun last hlast => ⟨ts, rfl, ?_⟩⟩
    rw [hlast] at hlater
    exact le_of_lt (of_decide_eq_true hlater)

theorem assertTsMonotonic_view {ts : Option HlcTimestamp} (h : assertTsMonotonic r ts = some r') :
    r'.view = r.view := by
  obtain ⟨clock, rfl, -⟩ := assertTsMonotonic_eq h
  rfl

theorem applyEntry_effect (h : applyEntry host r entry = some (r', out)) :
    Effect host entry.command r r' := by
  obtain ⟨checked, hchecked, h⟩ := bind_eq_some_iff.mp h
  obtain ⟨clock, rfl, hclock⟩ := assertTsMonotonic_eq hchecked
  have heffect := applyCommand_effect h
  refine { heffect with clock := fun last hlast => ?_ }
  obtain ⟨checked, hchecked, hle⟩ := hclock last hlast
  obtain ⟨last', hlast', hle'⟩ := heffect.clock checked hchecked
  exact ⟨last', hlast', hle.trans hle'⟩

/-- Applying an entry is a run of merges that its command may make. -/
theorem applyEntry_trace (h : applyEntry host r entry = some (r', out)) :
    Trace (Writes host r.view entry.command) r.view r'.view :=
  (applyEntry_effect h).view

variable {outs : List ApplyOutcome}

variable {P : Replica → LogEntry Cond → Prop} {I : Replica → Prop}

/-- Every entry of a log meets a condition at the replica that applies it. -/
def Along (host : Host Cond) (P : Replica → LogEntry Cond → Prop) : Replica → List (LogEntry Cond) → Prop
  | _, [] => True
  | r, entry :: log => P r entry ∧ ∀ r' out, applyEntry host r entry = some (r', out) → Along host P r' log

variable {log : List (LogEntry Cond)}

theorem Along.and_forall {Q : LogEntry Cond → Prop} (h : Along host P r log)
    (hQ : ∀ entry ∈ log, Q entry) : Along host (fun r entry => P r entry ∧ Q entry) r log := by
  induction log generalizing r with
  | nil => trivial
  | cons entry log ih =>
    exact ⟨⟨h.1, hQ entry mem_cons_self⟩, fun r' out happly =>
      ih (h.2 r' out happly) fun entry hentry => hQ entry (mem_cons_of_mem _ hentry)⟩

theorem Along.mono {Q : Replica → LogEntry Cond → Prop} (h : Along host P r log)
    (hQ : ∀ r entry, P r entry → Q r entry) : Along host Q r log := by
  induction log generalizing r with
  | nil => trivial
  | cons entry log ih => exact ⟨hQ r entry h.1, fun r' out happly => ih (h.2 r' out happly)⟩

theorem applyReporting_append (front rest : List (LogEntry Cond)) : applyReporting host r (front ++ rest) =
      (applyReporting host r front).bind fun p => (applyReporting host p.1 rest).map fun q =>
      (q.1, p.2 ++ q.2) := by
  induction front generalizing r with
  | nil => simp [applyReporting]
  | cons entry front ih =>
    rw [cons_append, applyReporting, applyReporting]
    cases applyEntry host r entry with
    | none => rfl
    | some p =>
      simp only [bind_eq_bind, bind_some, ih, bind_assoc]
      refine bind_congr fun q _ => ?_
      cases applyReporting host q.1 rest <;> rfl

theorem Along.front {front rest : List (LogEntry Cond)} (h : Along host P r (front ++ rest)) :
    Along host P r front := by
  induction front generalizing r with
  | nil => trivial
  | cons entry front ih => exact ⟨h.1, fun r' out happly => ih (h.2 r' out happly)⟩

theorem length_applyReporting (h : applyReporting host r log = some (r', outs)) :
    outs.length = log.length := by
  induction log generalizing r outs with
  | nil =>
    cases h
    rfl
  | cons entry log ih =>
    obtain ⟨⟨next, out⟩, hnext, h⟩ := bind_eq_some_iff.mp h
    obtain ⟨⟨last, outs'⟩, hlast, h⟩ := bind_eq_some_iff.mp h
    cases h
    rw [length_cons, length_cons, ih hlast]

theorem Along.rest {front rest : List (LogEntry Cond)} (h : Along host P r (front ++ rest))
    (happly : applyReporting host r front = some (r', outs)) : Along host P r' rest := by
  induction front generalizing r outs with
  | nil =>
    cases happly
    exact h
  | cons entry front ih =>
    obtain ⟨⟨next, out⟩, hnext, happly⟩ := bind_eq_some_iff.mp happly
    obtain ⟨⟨last, outs'⟩, hlast, happly⟩ := bind_eq_some_iff.mp happly
    cases happly
    exact ih (h.2 next out hnext) hlast

theorem applyLog_preserves (h : applyLog host r log = some r') (hP : Along host P r log)
    (hstep : ∀ r entry r' out, I r → P r entry → applyEntry host r entry = some (r', out) → I r') (hI : I r) :
    I r' := by
  induction log generalizing r with
  | nil =>
    cases h
    exact hI
  | cons entry log ih =>
    rw [applyLog, foldlM_cons] at h
    obtain ⟨next, hnext, h⟩ := bind_eq_some_iff.mp h
    obtain ⟨⟨next', out⟩, happly, rfl⟩ := map_eq_some_iff.mp hnext
    exact ih h (hP.2 _ _ happly) (hstep _ _ _ _ hI hP.1 happly)

end AnimusDb.Tablet
