import AnimusDb.TabletMirror
import Mathlib.Logic.Function.Basic

/-! The regions of a multi-region table: each applies writes of its own and records of the others, in any
order, and the stamp of a record alone decides what stands. -/

open AnimusDb.Items List Option MrecVersion
open AnimusDb.Lsm (MemoryEngine MergeOp Key Version)
open scoped AnimusDb.Lsm
open ByteCodec (Bytes Reader Reads be number andThen result reads_number)
open LastWriter (Wins)

namespace AnimusDb.Items.MrecVersion

variable {stored : Option MrecVersion} {wallMs regionId : Nat}

/-- There is a stamp above the stored one. -/
def Open (stored : Option MrecVersion) : Prop :=
  (stored.getD zero).logical < logicalMax ∨ (stored.getD zero).wallMs < wallMax

theorem lt_nextLocal (h : Open stored) : stored.getD zero < nextLocal stored wallMs regionId := by
  unfold nextLocal
  dsimp only
  split_ifs with hahead hlogical
  · exact lt_iff.mpr (.inl hahead)
  · exact lt_iff.mpr (.inr ⟨rfl, .inl (Nat.lt_succ_self _)⟩)
  · exact lt_iff.mpr (.inl (lt_min (Nat.lt_succ_self _) (h.resolve_left hlogical)))

theorem regionId_nextLocal : (nextLocal stored wallMs regionId).regionId = regionId := by
  unfold nextLocal
  dsimp only
  split_ifs <;> rfl

end AnimusDb.Items.MrecVersion

namespace AnimusDb.Tablet

variable {Cond : Type} {items : ItemLayer Cond} {e : KindEvalEntry Cond}

variable {m m' : MemoryEngine} {key : Bytes}
  {old new old' new' : Option Item} {ver : MrecVersion} {writes : List KindWrite} {changeLog : Bytes × Bytes}
  {newVer storedVer : Option MrecVersion} {version : Nat}

/-- The item and stamp stored at a base key. -/
def storedAt (items : ItemLayer Cond) (m : MemoryEngine) (key : Bytes) :
    Option (Option Item × Option MrecVersion) :=
  (readEnvelope m (physical kindBase key)).bind (storedItemOf items)

/-- The form in which a stamped write stores its item. -/
def stampedForm (e : KindEvalEntry Cond) (new : Option Item) (ver : MrecVersion) : StoredItem :=
  match new with
  | some item => .versionedItem item ver
  | none => .versionedTombstone ver (some e.pk) e.sk

/-- The serialiser reads a form back as it wrote it. -/
structure ReadsBack (codec : StoredCodec) (s : StoredItem) : Prop where
  version : storedItemVersion (codec.toVec s) = some 1
  form : codec.fromSlice (codec.toVec s) = some s

theorem ReadsBack.decode (h : ReadsBack items.stored (stampedForm e new ver)) :
    decodeStoredItemVersioned items.stored (items.stored.toVec (stampedForm e new ver)) =
    some (new, some ver) := by
  rw [decodeStoredItemVersioned, if_pos h.version, h.form]
  cases new <;> rfl

/-- The base row of a stamped write. -/
def stampedRow (items : ItemLayer Cond) (e : KindEvalEntry Cond) (new : Option Item) (ver : MrecVersion) :
    KindWrite :=
  ((kindBase, kindEvalBaseKey items e.pk e.sk), some (items.stored.toVec (stampedForm e new ver)))

theorem kindEvalApplied_stamped
    (h : kindEvalApplied items e old new (some ver) = .applied writes changeLog old' new' newVer) :
    new' = new ∧ newVer = some ver ∧ stampedRow items e new ver ∈ writes ∧
      ∀ w ∈ writes, w.1.1 = kindBase → w = stampedRow items e new ver := by
  have hwrites : ∃ m : Mutation, m.kindLsi = kindLsi ∧ new' = new ∧ newVer = some ver ∧
    writes = stampedRow items e new ver ::
        e.schema.lsis.flatMap (lsiWrites ⟨encodeStoredItem items.stored, items.changeRecord⟩
        e.schema.toWriteSchema m) := by
    cases new <;> injection h with hwrites _ _ hnew hver <;>
      exact ⟨_, rfl, hnew.symm, hver.symm, hwrites.symm⟩
  obtain ⟨m, hkind, rfl, rfl, rfl⟩ := hwrites
  refine ⟨rfl, rfl, mem_cons_self, fun w hw hbase => ?_⟩
  rcases mem_cons.mp hw with rfl | hw
  · rfl
  · obtain ⟨lsi, -, hw⟩ := mem_flatMap.mp hw
    obtain ⟨value, hvalue⟩ := lsiWrites_key hw
    rw [hvalue] at hbase
    exact absurd (hkind.symm.trans hbase) (by decide)

/-- The merge of a base row. -/
def stampedOp (items : ItemLayer Cond) (e : KindEvalEntry Cond) (new : Option Item) (ver : MrecVersion)
    (version : Nat) : MergeOp :=
  ⟨physical kindBase (kindEvalBaseKey items e.pk e.sk), version,
    some (encodeCommitted (items.stored.toVec (stampedForm e new ver)))⟩

theorem newest_stamped (hwrites : stampedRow items e new ver ∈ writes)
    (hbase : ∀ w ∈ writes, w.1.1 = kindBase → w = stampedRow items e new ver)
    (hfresh : ¬ m.Reaches (physical kindBase (kindEvalBaseKey items e.pk e.sk)) version) :
    (m.mergeAll (materializeDerived writes [changeLog] version 0).1).newest
      (physical kindBase (kindEvalBaseKey items e.pk e.sk)) = some (stampedOp items e new ver version) := by
  have hop : stampedOp items e new ver version ∈ (materializeDerived writes [changeLog] version 0).1 :=
    mem_append_left _ (mem_filterMap.mpr ⟨_, hwrites, rfl⟩)
  obtain ⟨top, htop, hle⟩ := MemoryEngine.reaches_mergeAll m hop
  rcases MemoryEngine.newest_mergeAll m (materializeDerived writes [changeLog] version 0).1
      (stampedOp items e new ver version).key with hsame | ⟨other, hother, hkey, hnew⟩
  · exact absurd ⟨top, hsame.symm.trans htop, hle⟩ hfresh
  · refine hnew.trans (congrArg some ?_)
    cases derived_of_mem hother with
    | row hw hkind =>
      rw [hbase _ hw (cons.inj hkey).1]
      rfl
    | change => exact absurd (cons.inj hkey).1 (by decide)

theorem storedAt_stamped (h : m.newest (physical kindBase (kindEvalBaseKey items e.pk e.sk)) = some
    (stampedOp items e new ver version)) (hcodec : ReadsBack items.stored (stampedForm e new ver)) :
    storedAt items m (kindEvalBaseKey items e.pk e.sk) = some (new, some ver) := by
  rw [storedAt, readEnvelope, MemoryEngine.read, h]
  exact hcodec.decode

theorem storedAt_other (hbase : ∀ w ∈ writes, w.1.1 = kindBase → w = stampedRow items e new ver)
    (hkey : key ≠ kindEvalBaseKey items e.pk e.sk) :
    storedAt items (m.mergeAll (materializeDerived writes [changeLog] version 0).1) key =
      storedAt items m key := by
  rw [storedAt, storedAt, readEnvelope, readEnvelope, MemoryEngine.read, MemoryEngine.read,
    MemoryEngine.newest_mergeAll_of_ne fun op hop heq => ?_]
  obtain ⟨w, hw, hrow⟩ := (derived_of_mem hop).base heq
  have hstamped := hbase w hw (congrArg Prod.fst hrow)
  rw [hstamped] at hrow
  exact hkey (congrArg Prod.snd hrow).symm

variable {ts : HlcTimestamp}

section Evaluated

/-- What the evaluation of a write does to a replica. -/
inductive Evaluated (items : ItemLayer Cond) (r : Replica) (e : KindEvalEntry Cond) :
    Replica → KindBatchOutcome → Prop
  | refused {r' out} (hview : r'.view = r.view) (hout : out ≠ .applied) : Evaluated items r e r' out
  | superseded {r' item ver old storedVer} (hview : r'.view = r.view) (hop : e.op = .replicate item ver)
      (hstored : storedAt items r.view (kindEvalBaseKey items e.pk e.sk) = some (old, storedVer))
      (hstale : ver ≤ storedVer.getD .zero) : Evaluated items r e r' .applied
  | written {r' old storedVer version writes changeLog old' new newVer}
      (hstored : storedAt items r.view (kindEvalBaseKey items e.pk e.sk) = some (old, storedVer))
      (hfresh : ¬ r.view.Reaches (physical kindBase (kindEvalBaseKey items e.pk e.sk)) version)
      (hdecision : evaluateKindEval items e old storedVer = some (.applied writes changeLog old' new newVer))
      (hview : r'.view = r.view.mergeAll (materializeDerived writes [changeLog] version 0).1) :
      Evaluated items r e r' .applied

variable {r r' : Replica} {out : KindBatchOutcome}
  {result : Option KindEvalResult}

theorem evaluateKindEval_superseded {current : Option Item}
    (h : evaluateKindEval items e old storedVer = some (.superseded current)) :
    ∃ item ver, e.op = .replicate item ver ∧ ver ≤ storedVer.getD .zero := by
  unfold evaluateKindEval at h
  split at h
  · rename_i item ver hop
    split_ifs at h with hmrec hstale
    · cases h
    · refine ⟨item, ver, hop, not_lt.mp fun hlt => ?_⟩
      rw [supersedes, decide_eq_true hlt] at hstale
      cases hstale
    · cases h
  · rcases evaluateLocal_cases h with h | ⟨code, message, h⟩ | ⟨new, -, h⟩
    · cases h
    · cases h
    · cases h

theorem applyKindEval_evaluated (h : applyKindEval items r e ts = some (r', out, result)) :
    Evaluated items r e r' out := by
  have hnone {out' : KindBatchOutcome} {result' : Option KindEvalResult} (hout : out' ≠ .applied)
      (h : some (r.flushPending, out', result') = some (r', out, result)) : Evaluated items r e r' out := by
    obtain ⟨rfl, hreport⟩ := Prod.mk.inj (some.inj h)
    cases hreport
    exact .refused Replica.view_flushPending hout
  unfold applyKindEval at h
  dsimp only at h
  rw [Replica.engine_flushPending] at h
  split at h
  · exact hnone (by simp) h
  · obtain ⟨version, -, h⟩ := bind_eq_some_iff.mp h
    obtain ⟨row, hrow, h⟩ := bind_eq_some_iff.mp h
    split at h
    · exact hnone (by simp) h
    · rename_i hfresh
      rw [keyReachedByEntry_iff] at hfresh
      split at h
      · exact hnone (by split <;> simp) h
      · obtain ⟨⟨old, storedVer⟩, hitem, h⟩ := bind_eq_some_iff.mp h
        obtain ⟨decision, hdecision, h⟩ := bind_eq_some_iff.mp h
        have hstored : storedAt items r.view (kindEvalBaseKey items e.pk e.sk) = some (old, storedVer) := by
          rw [storedAt, hrow, bind_some, hitem]
        cases decision with
        | conditionFailed => exact hnone (by simp) h
        | rejected => exact hnone (by simp) h
        | superseded current =>
          obtain ⟨rfl, hreport⟩ := Prod.mk.inj (some.inj h)
          cases hreport
          obtain ⟨item, ver, hop, hstale⟩ := evaluateKindEval_superseded hdecision
          exact .superseded Replica.view_flushPending hop hstored hstale
        | applied writes changeLog old' new' newVer =>
          obtain ⟨rfl, hreport⟩ := Prod.mk.inj (some.inj h)
          cases hreport
          refine .written hstored hfresh hdecision ?_
          rw [Replica.view_push, Replica.view_flushPending]

end Evaluated

variable {record : RegionRecord} {R : Type}

section World

/-- What a write ships to the other regions. -/
structure RegionRecord where
  pk : AttributeValue
  sk : Option AttributeValue
  item : Option Item
  ver : MrecVersion
deriving DecidableEq

/-- A record that a region has written or been given. -/
structure Arrival where
  record : RegionRecord
  own : Bool

structure Regions (R Cond : Type) where
  items : ItemLayer Cond
  regionId : R → Nat
  tablet : R → Nat

/-- The replicas of all regions, the records written so far, and which of them have come to each region, in
order. -/
structure World (R : Type) where
  replica : R → Replica
  produced : List RegionRecord
  arrived : R → List Arrival

/-- A region applies an entry. -/
structure RegionEvent (R Cond : Type) where
  region : R
  entry : KindEvalEntry Cond
  ts : HlcTimestamp

variable (net : Regions R Cond)

def Regions.start : World R := ⟨fun g => .start (net.tablet g) .empty, [], fun _ => []⟩

def RegionRecord.baseKey (items : ItemLayer Cond) (record : RegionRecord) :
    Bytes := kindEvalBaseKey items record.pk record.sk

/-- The record of a write: its key and what it left stored there. -/
def recordLeft (items : ItemLayer Cond) (e : KindEvalEntry Cond) (r : Replica) : Option RegionRecord :=
  (storedAt items r.view (kindEvalBaseKey items e.pk e.sk)).bind fun stored =>
    stored.2.map fun ver => ⟨e.pk, e.sk, stored.1, ver⟩

variable [DecidableEq R]

def World.after (w : World R) (g : R) (r : Replica) (arrivals : List Arrival) : World R :=
  { w with
    replica := Function.update w.replica g r
    arrived := Function.update w.arrived g (w.arrived g ++ arrivals) }

/-- The record goes to the other regions. -/
def World.ship (w : World R) (record : RegionRecord) :
    World R := { w with produced := w.produced ++ [record] }

def World.deliver (w : World R) (event : RegionEvent R Cond) (record : RegionRecord) : Option (World R) :=
  (applyKindEval net.items (w.replica event.region) event.entry event.ts).map fun (r, outcome, _) =>
    w.after event.region r (if outcome = .applied then [⟨record, false⟩] else [])

/-- A write of the region's own. -/
def World.write (w : World R) (event : RegionEvent R Cond) : Option (World R) := do
  let (r, outcome, _) ← applyKindEval net.items (w.replica event.region) event.entry event.ts
  if outcome = .applied then do
    let record ← recordLeft net.items event.entry r
    some ((w.after event.region r [⟨record, true⟩]).ship record)
  else some (w.after event.region r [])

/-- Records are delivered as they were written; a region stamps its own writes with its own id. -/
def World.step (w : World R) (event : RegionEvent R Cond) : Option (World R) :=
  match event.entry.op with
  | .replicate item ver =>
    if ⟨event.entry.pk, event.entry.sk, item, ver⟩ ∈ w.produced then
      w.deliver net event ⟨event.entry.pk, event.entry.sk, item, ver⟩
    else none
  | _ =>
    if event.entry.schema.mrec.map MrecStamp.regionId =
      some (net.regionId event.region) then w.write net event else none

def World.run (w : World R) : List (RegionEvent R Cond) → Option (World R)
  | [] => some w
  | event :: events => (w.step net event).bind (run · events)

/-- Every event of a run meets a condition where it happens. -/
def World.Along (P : World R → RegionEvent R Cond → Prop) : World R → List (RegionEvent R Cond) → Prop
  | _, [] => True
  | w, event :: events => P w event ∧ ∀ w', w.step net event = some w' → Along P w' events

variable {net} {w w' : World R} {event : RegionEvent R Cond} {events : List (RegionEvent R Cond)}
  {P : World R → RegionEvent R Cond → Prop}

theorem World.run_preserves {I : World R → Prop} (h : w.run net events = some w') (hP : w.Along net P events)
    (hstep : ∀ w event w', I w → P w event → w.step net event = some w' → I w') (hI : I w) : I w' := by
  induction events generalizing w with
  | nil =>
    cases h
    exact hI
  | cons event events ih =>
    obtain ⟨next, hnext, h⟩ := bind_eq_some_iff.mp h
    exact ih h (hP.2 next hnext) (hstep w event next hI hP.1 hnext)

/-- An event where the serialiser reads back what is written, and a write of the region's own finds a stamp
to take. -/
def Regular (net : Regions R Cond) (w : World R) (event : RegionEvent R Cond) : Prop :=
  ∀ old storedVer writes changeLog old' new ver,
    storedAt net.items (w.replica event.region).view
      (kindEvalBaseKey net.items event.entry.pk event.entry.sk) = some (old, storedVer) →
    evaluateKindEval net.items event.entry old storedVer =
      some (.applied writes changeLog old' new (some ver)) →
    ReadsBack net.items.stored (stampedForm event.entry new ver) ∧
      (event.entry.op.isReplicate = false → MrecVersion.Open storedVer)

/-- What an event does to the regions: nothing, a record that is behind, or a record that stands. -/
inductive World.Step (net : Regions R Cond) (w : World R) (event : RegionEvent R Cond) : World R → Prop
  | refused {r} (hview : r.view = (w.replica event.region).view) :
      Step net w event (w.after event.region r [])
  | behind {r record old storedVer} (hview : r.view = (w.replica event.region).view) (hmem : record ∈ w.produced)
      (hstored : storedAt net.items (w.replica event.region).view (record.baseKey net.items) = some
        (old, storedVer))
      (hstale : record.ver ≤ storedVer.getD .zero) :
        Step net w event (w.after event.region r [⟨record, false⟩])
  | ahead {r record old storedVer} (hmem : record ∈ w.produced)
      (hstored : storedAt net.items (w.replica event.region).view (record.baseKey net.items) = some
      (old, storedVer)) (hnewer : storedVer.getD .zero < record.ver)
      (hleft : storedAt net.items r.view (record.baseKey net.items) = some (record.item, some record.ver))
      (hother : ∀ key, key ≠ record.baseKey net.items →
        storedAt net.items r.view key = storedAt net.items (w.replica event.region).view key) :
      Step net w event (w.after event.region r [⟨record, false⟩])
  | wrote {r record old storedVer}
      (hstored : storedAt net.items (w.replica event.region).view (record.baseKey net.items) = some
      (old, storedVer))
      (hnewer : storedVer.getD .zero < record.ver) (hregion : record.ver.regionId = net.regionId event.region)
      (hleft : storedAt net.items r.view (record.baseKey net.items) = some (record.item, some record.ver))
      (hother : ∀ key, key ≠ record.baseKey net.items →
        storedAt net.items r.view key = storedAt net.items (w.replica event.region).view key) :
      Step net w event ((w.after event.region r [⟨record, true⟩]).ship record)

theorem World.deliver_step (h : w.deliver net event record = some w')
    (hop : event.entry.op = .replicate record.item record.ver) (hpk : event.entry.pk = record.pk)
    (hsk : event.entry.sk = record.sk) (hmem : record ∈ w.produced) (hregular : Regular net w event) :
    World.Step net w event w' := by
  obtain ⟨⟨r, outcome, result⟩, happly, rfl⟩ := map_eq_some_iff.mp h
  have hkey : kindEvalBaseKey net.items event.entry.pk event.entry.sk = record.baseKey net.items := by
    rw [hpk, hsk, RegionRecord.baseKey]
  cases applyKindEval_evaluated happly with
  | refused hview hout =>
    dsimp only
    rw [if_neg hout]
    exact .refused hview
  | superseded hview hop' hstored hstale =>
    obtain ⟨rfl, rfl⟩ := KindEvalOp.replicate.inj (hop.symm.trans hop')
    exact .behind hview hmem (hkey ▸ hstored) hstale
  | @written old storedVer version writes changeLog old' new newVer hstored hfresh hdecision hview =>
    rcases evaluateKindEval_applied hdecision with ⟨item, ver, hop', hnewer, happlied⟩ | ⟨new, hlocal, -⟩
    · obtain ⟨rfl, rfl⟩ := KindEvalOp.replicate.inj (hop.symm.trans hop')
      obtain ⟨rfl, rfl, hrow, hbase⟩ := kindEvalApplied_stamped happlied
      have hcodec := (hregular _ _ _ _ _ _ _ hstored hdecision).1
      refine .ahead hmem (hkey ▸ hstored) (of_decide_eq_true hnewer) ?_ fun key hne => ?_
      · rw [hview, ← hkey]
        exact storedAt_stamped (newest_stamped hrow hbase hfresh) hcodec
      · rw [hview]
        exact storedAt_other hbase (hkey ▸ hne)
    · rw [hop] at hlocal
      cases hlocal

theorem World.write_step (h : w.write net event = some w') (hop : event.entry.op.isReplicate = false)
    (hstamp : event.entry.schema.mrec.map MrecStamp.regionId = some (net.regionId event.region))
    (hregular : Regular net w event) : World.Step net w event w' := by
  obtain ⟨⟨r, outcome, result⟩, happly, h⟩ := bind_eq_some_iff.mp h
  obtain ⟨stamp, hmrec, hregion⟩ := map_eq_some_iff.mp hstamp
  cases applyKindEval_evaluated happly with
  | refused hview hout =>
    dsimp only at h
    rw [if_neg hout] at h
    cases h
    exact .refused hview
  | superseded hview hop' =>
    rw [hop'] at hop
    cases hop
  | @written old storedVer version writes changeLog old' new newVer hstored hfresh hdecision hview =>
    obtain ⟨record, hrecord, h⟩ := bind_eq_some_iff.mp h
    cases h
    rcases evaluateKindEval_applied hdecision with ⟨item, ver, hop', -⟩ | ⟨made, -, happlied⟩
    · rw [hop'] at hop
      cases hop
    · rw [hmrec, map_some] at happlied
      obtain ⟨rfl, rfl, hrow, hbase⟩ := kindEvalApplied_stamped happlied
      obtain ⟨hcodec, hopen⟩ := hregular _ _ _ _ _ _ _ hstored hdecision
      have hleft : storedAt net.items r.view (kindEvalBaseKey net.items event.entry.pk event.entry.sk) =
          some (new, some (nextLocal storedVer stamp.wallMs stamp.regionId)) := by
        rw [hview]
        exact storedAt_stamped (newest_stamped hrow hbase hfresh) hcodec
      rw [recordLeft, hleft] at hrecord
      cases hrecord
      refine .wrote hstored (lt_nextLocal (hopen hop)) ?_ hleft fun key hne => ?_
      · rw [regionId_nextLocal, hregion]
      · rw [hview]
        exact storedAt_other hbase hne

theorem World.step_cases (h : w.step net event = some w') (hregular : Regular net w event) :
    World.Step net w event w' := by
  unfold World.step at h
  split at h
  · rename_i item ver hop
    split_ifs at h with hmem
    exact World.deliver_step h hop rfl rfl hmem hregular
  · rename_i hlocal
    split_ifs at h with hstamp
    refine World.write_step h ?_ hstamp hregular
    cases hop : event.entry.op with
    | replicate item ver => exact absurd hop (hlocal item ver)
    | _ => rfl

end World

variable {r : Replica} {arrivals : List Arrival} {g : R}

section Converge

variable {net : Regions R Cond} {w w' : World R}

/-- The records that came to a region. -/
def World.records (w : World R) (g : R) : List RegionRecord := (w.arrived g).map Arrival.record

/-- A region stores a record, or nothing. -/
def Stores (items : ItemLayer Cond) (m : MemoryEngine) (key : Bytes) (record : Option RegionRecord) : Prop :=
  storedAt items m key = some (record.bind RegionRecord.item, record.map RegionRecord.ver)

/-- What holds of the regions in every run. -/
structure Converging (net : Regions R Cond) (w : World R) : Prop where
  rows : ∀ g key, ∃ record, Wins (RegionRecord.baseKey net.items) RegionRecord.ver (w.records g) key record ∧
    Stores net.items (w.replica g).view key record
  known : ∀ g, ∀ record ∈ w.records g, record ∈ w.produced
  stamped : ∀ record ∈ w.produced, .zero < record.ver
  home : ∀ record ∈ w.produced, ∀ g, record.ver.regionId = net.regionId g → record ∈ w.records g
  distinct : ∀ a ∈ w.produced, ∀ b ∈ w.produced, a.baseKey net.items = b.baseKey net.items → a.ver = b.ver → a = b
  rising : ∀ g, (w.arrived g).Pairwise fun a b =>
    b.own → a.record.baseKey net.items = b.record.baseKey net.items → a.record.ver < b.record.ver

theorem Converging.start (net : Regions R Cond) : Converging net net.start where
  rows _ _ := ⟨none, LastWriter.wins_nil, rfl⟩
  known := by simp [World.records, Regions.start]
  stamped := by simp [Regions.start]
  home := by simp [Regions.start]
  distinct := by simp [Regions.start]
  rising _ := .nil

/-- Everything that came to a region for a key is at or below the stamp stored there. -/
theorem Converging.le_stored (h : Converging net w) {key : Bytes}
    (hstored : storedAt net.items (w.replica g).view key = some (old, storedVer))
    (hmem : record ∈ w.records g) (hkey : record.baseKey net.items = key) :
      record.ver ≤ storedVer.getD .zero := by
  obtain ⟨winner, hwins, hstores⟩ := h.rows g key
  obtain ⟨top, rfl, hle⟩ := hwins.below hmem hkey
  obtain ⟨-, hver⟩ := Prod.mk.inj (some.inj (hstored.symm.trans hstores))
  rw [hver]
  exact hle

@[simp] theorem World.replica_ship (record : RegionRecord) : (w.ship record).replica = w.replica := rfl

@[simp] theorem World.arrived_ship (record : RegionRecord) : (w.ship record).arrived = w.arrived := rfl

variable [DecidableEq R]

@[simp] theorem World.replica_after (g : R) (r : Replica) (arrivals : List Arrival) :
    (w.after g r arrivals).replica g = r := Function.update_self ..

variable {g' : R}

theorem World.replica_after_of_ne (h : g' ≠ g) (r : Replica) (arrivals : List Arrival) :
    (w.after g r arrivals).replica g' = w.replica g' := Function.update_of_ne h ..

@[simp] theorem World.arrived_after (g : R) (r : Replica) (arrivals : List Arrival) :
    (w.after g r arrivals).arrived g = w.arrived g ++ arrivals := Function.update_self ..

theorem World.arrived_after_of_ne (h : g' ≠ g) (r : Replica) (arrivals : List Arrival) :
    (w.after g r arrivals).arrived g' = w.arrived g' := Function.update_of_ne h ..

@[simp] theorem World.records_after (g : R) (r : Replica) (arrivals : List Arrival) :
    (w.after g r arrivals).records g = w.records g ++ arrivals.map Arrival.record := by
  rw [World.records, World.arrived_after, map_append, World.records]

theorem World.records_after_of_ne (h : g' ≠ g) (r : Replica) (arrivals : List Arrival) :
    (w.after g r arrivals).records g' = w.records g' := by
  rw [World.records, World.arrived_after_of_ne h, World.records]

/-- A store holds at a key the record that stands among those given. -/
def Settled (items : ItemLayer Cond) (records : List RegionRecord) (m : MemoryEngine) (key : Bytes) : Prop :=
  ∃ record, Wins (RegionRecord.baseKey items) RegionRecord.ver records key record ∧ Stores items m key record

theorem Converging.rows_after (h : Converging net w)
    (hrows : ∀ key, Settled net.items (w.records g) (w.replica g).view key →
    Settled net.items (w.records g ++ arrivals.map Arrival.record) r.view key) (g' : R) (key : Bytes) :
    Settled net.items ((w.after g r arrivals).records g') ((w.after g r arrivals).replica g').view key := by
  by_cases hg : g' = g
  · subst hg
    rw [World.records_after, World.replica_after]
    exact hrows key (h.rows g' key)
  · rw [World.records_after_of_ne hg, World.replica_after_of_ne hg]
    exact h.rows g' key

theorem World.mem_records_after : record ∈ (w.after g r arrivals).records g' ↔
      record ∈ w.records g' ∨ g' = g ∧ record ∈ arrivals.map Arrival.record := by
  by_cases hg : g' = g
  · subst hg
    rw [World.records_after, mem_append]
    simp
  · rw [World.records_after_of_ne hg]
    simp [hg]

/-- Nothing, or a record of another region, has come to a region. -/
theorem Converging.arrive (h : Converging net w) (hrows : ∀ key, Settled net.items (w.records g)
      (w.replica g).view key → Settled net.items (w.records g ++ arrivals.map Arrival.record) r.view key)
    (harrivals : ∀ a ∈ arrivals, a.record ∈ w.produced ∧ a.own = false) (hlength : arrivals.length ≤ 1) :
    Converging net (w.after g r arrivals) where
  rows := h.rows_after hrows
  known g' record hrecord := by
    rcases World.mem_records_after.mp hrecord with hold | ⟨-, hnew⟩
    · exact h.known g' record hold
    · obtain ⟨a, ha, rfl⟩ := mem_map.mp hnew
      exact (harrivals a ha).1
  stamped := h.stamped
  home record hrecord g' hregion := World.mem_records_after.mpr (.inl (h.home record hrecord g' hregion))
  distinct := h.distinct
  rising g' := by
    by_cases hg : g' = g
    · subst hg
      rw [World.arrived_after, pairwise_append]
      refine ⟨h.rising g', ?_, fun a _ b hb hown => ?_⟩
      · rcases arrivals with - | ⟨a, - | ⟨b, rest⟩⟩
        · exact .nil
        · exact pairwise_singleton _ _
        · simp at hlength
      · rw [(harrivals b hb).2] at hown
        cases hown
    · rw [World.arrived_after_of_ne hg]
      exact h.rising g'

section Ahead

variable (hstored : storedAt net.items (w.replica g).view (record.baseKey net.items) = some (old, storedVer))
  (hnewer : storedVer.getD .zero < record.ver)
  (hleft : storedAt net.items r.view (record.baseKey net.items) = some (record.item, some record.ver))
  (hother : ∀ key, key ≠ record.baseKey net.items → storedAt net.items r.view key = storedAt net.items
    (w.replica g).view key)

include hstored hnewer hleft hother

omit [DecidableEq R] in
theorem settled_ahead (key : Bytes) (h : Settled net.items (w.records g) (w.replica g).view key) :
    Settled net.items (w.records g ++ [record]) r.view key := by
  obtain ⟨winner, hwins, hstores⟩ := h
  by_cases hkey : record.baseKey net.items = key
  · subst hkey
    refine ⟨some record, hwins.ahead rfl fun top htop => ?_, hleft⟩
    obtain ⟨-, hver⟩ := Prod.mk.inj (some.inj (hstored.symm.trans hstores))
    rw [hver, htop] at hnewer
    exact hnewer
  · exact ⟨winner, hwins.other hkey, (hother key (Ne.symm hkey)).trans hstores⟩

/-- A region has written a record of its own. -/
theorem Converging.wrote (h : Converging net w) (hids : Function.Injective net.regionId)
    (hregion : record.ver.regionId = net.regionId g) :
    Converging net ((w.after g r [⟨record, true⟩]).ship record) := by
  -- a stamp of this region is above everything that came to it, so no earlier record carries it
  have hfresh : ∀ b ∈ w.produced, b.baseKey net.items = record.baseKey net.items → b.ver ≠ record.ver := by
    intro b hb hkey hver
    have hhome := h.home b hb g (hver ▸ hregion)
    exact (h.le_stored hstored hhome hkey).not_gt (hver ▸ hnewer)
  have hzero : .zero < record.ver := by
    refine lt_of_le_of_lt (not_lt.mp fun hneg => ?_) hnewer
    simp [lt_iff, zero] at hneg
  refine ⟨h.rows_after (settled_ahead hstored hnewer hleft hother), fun g' b hb => ?_, fun b hb => ?_,
    fun b hb g' hb' => ?_, fun a ha b hb hkey hver => ?_, fun g' => ?_⟩
  · rcases (World.mem_records_after (r := r)).mp hb with hold | ⟨-, hnew⟩
    · exact mem_append_left _ (h.known g' b hold)
    · exact mem_append_right _ hnew
  · rcases mem_append.mp hb with hold | hnew
    · exact h.stamped b hold
    · exact mem_singleton.mp hnew ▸ hzero
  · refine (World.mem_records_after (r := r)).mpr ?_
    rcases mem_append.mp hb with hold | hnew
    · exact .inl (h.home b hold g' hb')
    · rw [mem_singleton.mp hnew] at hb' ⊢
      exact .inr ⟨hids (hb'.symm.trans hregion), mem_singleton_self _⟩
  · rcases mem_append.mp ha with hold | hnew <;> rcases mem_append.mp hb with hold' | hnew'
    · exact h.distinct a hold b hold' hkey hver
    · rw [mem_singleton.mp hnew'] at hkey hver
      exact absurd hver (hfresh a hold hkey)
    · rw [mem_singleton.mp hnew] at hkey hver
      exact absurd hver.symm (hfresh b hold' hkey.symm)
    · rw [mem_singleton.mp hnew, mem_singleton.mp hnew']
  · change ((w.after g r [⟨record, true⟩]).arrived g').Pairwise _
    by_cases hg : g' = g
    · rw [hg, World.arrived_after, pairwise_append]
      refine ⟨h.rising _, pairwise_singleton _ _, fun a ha b hb _ hkey => ?_⟩
      obtain rfl := mem_singleton.mp hb
      exact (h.le_stored hstored (mem_map_of_mem ha) hkey).trans_lt hnewer
    · rw [World.arrived_after_of_ne hg]
      exact h.rising g'

end Ahead

theorem Converging.step {event : RegionEvent R Cond} (h : Converging net w)
    (hids : Function.Injective net.regionId) (hstep : World.Step net w event w') : Converging net w' := by
  cases hstep with
  | refused hview =>
    refine h.arrive (fun key ⟨winner, hwins, hstores⟩ => ⟨winner, ?_, by rw [Stores, hview]; exact hstores⟩)
      (by simp) (by simp)
    rwa [map_nil, append_nil]
  | @behind r record old storedVer hview hmem hstored hstale =>
    refine h.arrive (fun key ⟨winner, hwins, hstores⟩ => ⟨winner, ?_, by rw [Stores, hview]; exact hstores⟩)
      (by simp [hmem]) (by simp)
    by_cases hkey : record.baseKey net.items = key
    · subst hkey
      obtain ⟨-, hver⟩ := Prod.mk.inj (some.inj (hstored.symm.trans hstores))
      rw [hver] at hstale
      cases winner with
      -- every record is stamped above what an absent row counts as
      | none => exact absurd (h.stamped record hmem) hstale.not_gt
      | some top => exact hwins.behind hstale
    · exact hwins.other hkey
  | ahead hmem hstored hnewer hleft hother =>
    exact h.arrive (settled_ahead hstored hnewer hleft hother) (by simp [hmem]) (by simp)
  | wrote hstored hnewer hregion hleft hother => exact h.wrote hstored hnewer hleft hother hids hregion

/-- Every region stores the record with the greatest stamp of those that came to it; regions that were given
the same records store the same; and a region's own write is stamped above all that came to it before. -/
theorem regions_converge (hids : Function.Injective net.regionId) {events : List (RegionEvent R Cond)}
    (hrun : net.start.run net events = some w) (hevents : net.start.Along net (Regular net) events) :
    (∀ g key, ∃ record, Wins (RegionRecord.baseKey net.items) RegionRecord.ver (w.records g) key record ∧
      Stores net.items (w.replica g).view key record) ∧
      (∀ g g' key, (∀ record : RegionRecord, record.baseKey net.items = key →
        (record ∈ w.records g ↔ record ∈ w.records g')) →
      storedAt net.items (w.replica g).view key = storedAt net.items (w.replica g').view key) ∧
    ∀ g, (w.arrived g).Pairwise fun a b =>
      b.own → a.record.baseKey net.items = b.record.baseKey net.items → a.record.ver < b.record.ver := by
  have h : Converging net w := World.run_preserves hrun hevents
    (fun _ _ _ hw hregular hstep => hw.step hids (World.step_cases hstep hregular)) (.start net)
  refine ⟨h.rows, fun g g' key hsame => ?_, h.rising⟩
  obtain ⟨record, hwins, hstores⟩ := h.rows g key
  obtain ⟨record', hwins', hstores'⟩ := h.rows g' key
  have hagree := hwins.agree hwins' hsame fun a ha b hb hkey hkey' =>
    h.distinct a (h.known g a ha) b (h.known g b hb) (hkey.trans hkey'.symm)
  rw [hstores, hstores', hagree]

end Converge

def putStamp (ver : MrecVersion) : Bytes := be 8 ver.wallMs ++ (be 4 ver.logical ++ be 4 ver.regionId)

def readStamp : Reader MrecVersion :=
  andThen (number 8) fun wall => andThen (number 4) fun logical => andThen (number 4) fun region =>
    result ⟨wall, logical, region⟩

/-- A serialiser of the tombstones of one item. -/
def tombstoneCodec : StoredCodec where
  toVec
    | .versionedTombstone ver _ _ => 0x22 :: putStamp ver
    | _ => []
  fromSlice bytes := (readStamp (bytes.drop 1)).map fun p => .versionedTombstone p.1 (some .null) none

/-- The regions of a table that has one item. -/
def sampleRegions (R : Type) (regionId : R → Nat) : Regions R Unit where
  items := { plainItems with stored := tombstoneCodec }
  regionId := regionId
  tablet _ := 1

/-- A delete of the item, by a region whose clock shows a time. -/
def sampleDelete (wallMs regionId : Nat) : KindEvalEntry Unit :=
  ⟨⟨⟨⟨[], none⟩, [], false⟩, some ⟨wallMs, regionId⟩⟩, .null, none, .delete, none, false⟩

/-- The record of a delete, in the log of another region. -/
def sampleReplicate (ver : MrecVersion) : KindEvalEntry Unit :=
  ⟨⟨⟨⟨[], none⟩, [], false⟩, some ⟨0, 0⟩⟩, .null, none, .replicate none ver, none, false⟩

/-- Every part of the stamp fits its width. -/
structure StampFits (ver : MrecVersion) : Prop where
  wall : ver.wallMs < 256 ^ 8
  logical : ver.logical < 256 ^ 4
  region : ver.regionId < 256 ^ 4

theorem tombstoneCodec_readsBack {ver : MrecVersion} (h : StampFits ver) :
    ReadsBack tombstoneCodec (.versionedTombstone ver (some .null) none) := by
  refine ⟨rfl, ?_⟩
  rw [tombstoneCodec]
  dsimp only
  have hreads : Reads readStamp ver (putStamp ver) :=
    (reads_number h.wall).andThen ((reads_number h.logical).andThen (reads_number h.region).then_result)
  rw [drop_succ_cons, drop_zero, hreads.whole, map_some]

variable {regionId : R → Nat} {w : World R} {wall region : Nat}

def sampleRow : Bytes := kindEvalBaseKey (sampleRegions Unit fun _ => 0).items .null none

theorem sampleDelete_regular
    (hstored : storedAt (sampleRegions R regionId).items (w.replica g).view sampleRow = some (old, storedVer))
    (hopen : MrecVersion.Open storedVer) (hfits : StampFits (nextLocal storedVer wall region)) :
    Regular (sampleRegions R regionId) w ⟨g, sampleDelete wall region, ts⟩ := by
  intro old' storedVer' writes changeLog old'' new ver hstored' hdecision
  obtain ⟨rfl, rfl⟩ := Prod.mk.inj (some.inj (hstored.symm.trans hstored'))
  rcases evaluateKindEval_applied hdecision with ⟨_, _, hop, -⟩ | ⟨made, hlocal, happlied⟩
  · cases hop
  · obtain rfl := Except.ok.inj (some.inj hlocal)
    obtain ⟨rfl, hver, -⟩ := kindEvalApplied_stamped happlied
    cases hver
    exact ⟨tombstoneCodec_readsBack hfits, fun _ => hopen⟩

theorem sampleReplicate_regular (hfits : StampFits ver) :
    Regular (sampleRegions R regionId) w ⟨g, sampleReplicate ver, ts⟩ := by
  intro old storedVer writes changeLog old' new ver' _ hdecision
  rcases evaluateKindEval_applied hdecision with ⟨_, _, hop, -, happlied⟩ | ⟨made, hlocal, -⟩
  · obtain ⟨rfl, rfl⟩ := KindEvalOp.replicate.inj hop
    obtain ⟨rfl, hver, -⟩ := kindEvalApplied_stamped happlied
    cases hver
    refine ⟨tombstoneCodec_readsBack hfits, ?_⟩
    rintro ⟨⟩
  · cases hlocal

theorem World.along_of_prefixes {R Cond : Type} [DecidableEq R] {net : Regions R Cond} {w : World R}
    {P : World R → RegionEvent R Cond → Prop} {events : List (RegionEvent R Cond)}
    (h : ∀ n event w', events[n]? = some event → w.run net (events.take n) = some w' → P w' event) :
      w.Along net P events := by
  induction events generalizing w with
  | nil => trivial
  | cons event events ih =>
    refine ⟨h 0 event w rfl rfl, fun w' hstep => ih fun n later last hlater hrun => ?_⟩
    refine h (n + 1) later last hlater ?_
    rw [take_succ_cons, World.run, hstep, bind_some, hrun]

def sampleId : Bool → Nat
  | false => 1
  | true => 2

/-- Two regions: one deletes the item, the other deletes it again by a clock that is behind, and each is
given the other's record, one of them twice. -/
def sampleRegionEvents : List (RegionEvent Bool Unit) :=
  [⟨false, sampleDelete 5 1, ⟨1, 0⟩⟩, ⟨true, sampleReplicate ⟨5, 0, 1⟩, ⟨1, 0⟩⟩,
    ⟨true, sampleDelete 3 2, ⟨2, 0⟩⟩, ⟨true, sampleReplicate ⟨5, 0, 1⟩, ⟨3, 0⟩⟩,
    ⟨false, sampleReplicate ⟨5, 1, 2⟩, ⟨2, 0⟩⟩]

theorem sampleRegionEvents_regular : (sampleRegions Bool sampleId).start.Along (sampleRegions Bool sampleId)
    (Regular (sampleRegions Bool sampleId)) sampleRegionEvents := by
  refine World.along_of_prefixes fun n event w hevent hrun => ?_
  match n with
  | 0 =>
    cases hevent
    cases hrun
    have hstored : storedAt (sampleRegions Bool sampleId).items
        ((sampleRegions Bool sampleId).start.replica false).view sampleRow = some (none, none) := rfl
    exact sampleDelete_regular hstored (.inl (by decide)) ⟨by decide, by decide, by decide⟩
  | 2 =>
    cases hevent
    have hfacts : (((sampleRegions Bool sampleId).start.run (sampleRegions Bool sampleId)
      (sampleRegionEvents.take 2)).bind
        fun w => storedAt (sampleRegions Bool sampleId).items (w.replica true).view sampleRow).map Prod.snd =
          some (some ⟨5, 0, 1⟩) := by decide +kernel
    rw [hrun] at hfacts
    obtain ⟨⟨old, storedVer⟩, hstored, rfl⟩ := map_eq_some_iff.mp hfacts
    exact sampleDelete_regular hstored (.inl (by decide)) ⟨by decide, by decide, by decide⟩
  | 1 | 3 | 4 =>
    cases hevent
    exact sampleReplicate_regular ⟨by decide, by decide, by decide⟩
  | n + 5 => cases hevent

theorem sampleId_injective : Function.Injective sampleId := by decide

theorem regions_converge_deleted :
    ∃ w, (sampleRegions Bool sampleId).start.run (sampleRegions Bool sampleId) sampleRegionEvents = some w ∧
    (w.arrived true).length = 3 ∧ storedAt (sampleRegions Bool sampleId).items (w.replica false).view
      sampleRow = storedAt (sampleRegions Bool sampleId).items (w.replica true).view sampleRow := by
  obtain ⟨w, hrun, hlength, hfalse, htrue⟩ :
      ∃ w ∈ (sampleRegions Bool sampleId).start.run (sampleRegions Bool sampleId) sampleRegionEvents,
        (w.arrived true).length = 3 ∧ (∀ record ∈ w.records false, record ∈ w.records true) ∧
        ∀ record ∈ w.records true, record ∈ w.records false := by decide +kernel
  refine ⟨w, hrun, hlength, ?_⟩
  exact (regions_converge sampleId_injective hrun sampleRegionEvents_regular).2.1 false true sampleRow
    fun record _ => ⟨hfalse record, htrue record⟩

def soleRegion : Regions Unit Unit := sampleRegions Unit fun _ => 1

/-- A delete by a clock that has stopped at its last millisecond. -/
def lateDelete : KindEvalEntry Unit := sampleDelete MrecVersion.wallMax 1

def lateRecord (logical : Nat) : RegionRecord := ⟨.null, none, none, ⟨MrecVersion.wallMax, logical, 1⟩⟩

variable {w : World Unit} {logical n : Nat}

theorem applyKindEval_lateDelete {row : Option Envelope} (hsealed : r.sealed = [])
    (hpack : pack ts = some version) (hfresh : ¬ r.view.Reaches (physical kindBase sampleRow) version)
    (hrow : readEnvelope r.view (physical kindBase sampleRow) = some row) (hcommitted : ∀ i, row ≠ some (.intent i))
    (hstored : storedItemOf soleRegion.items row = some (none, storedVer))
    (hnext : nextLocal storedVer wallMax 1 = ⟨wallMax, logical, 1⟩) :
    ∃ r' result, applyKindEval soleRegion.items r lateDelete ts = some (r', .applied, result) ∧
      r'.sealed = [] ∧ r'.view.newest (physical kindBase sampleRow) =
        some (stampedOp soleRegion.items lateDelete none ⟨wallMax, logical, 1⟩ version) := by
  obtain ⟨writes, changeLog, happlied⟩ :
    ∃ writes changeLog, kindEvalApplied soleRegion.items lateDelete none none
      (some (nextLocal storedVer wallMax 1)) = .applied writes changeLog none none
        (some (nextLocal storedVer wallMax 1)) := ⟨_, _, rfl⟩
  have hdecision : evaluateKindEval soleRegion.items lateDelete none storedVer = some
      (.applied writes changeLog none none (some (nextLocal storedVer wallMax 1))) := congrArg some happlied
  have hreached : keyReachedByEntry r.view (physical kindBase sampleRow) version = false :=
    Bool.eq_false_iff.mpr fun h => hfresh (keyReachedByEntry_iff.mp h)
  refine ⟨r.flushPending.push (materializeDerived writes [changeLog] version 0).1, some ⟨none, none, false⟩,
    ?_, ?_, ?_⟩
  · have hunsealed : isSealed r.flushPending.sealed sampleRow = false := by simp [hsealed, isSealed]
    rw [applyKindEval]
    dsimp only
    rw [Replica.engine_flushPending, show kindEvalBaseKey soleRegion.items lateDelete.pk lateDelete.sk =
      sampleRow from rfl, hunsealed, hpack, hrow]
    simp only [Bool.false_eq_true, if_false, bind_eq_bind, bind_some, hreached]
    rcases row with - | (bytes | i)
    · rw [hstored]
      simp only [bind_some, hdecision]
    · rw [hstored]
      simp only [bind_some, hdecision]
    · exact absurd rfl (hcommitted i)
  · exact Replica.flushPending_frame.1.trans hsealed
  · rw [Replica.view_push, Replica.view_flushPending]
    rw [hnext] at happlied
    obtain ⟨-, -, hwrites, hbase⟩ := kindEvalApplied_stamped happlied
    exact newest_stamped hwrites hbase hfresh

/-- What a number of late deletes leave. -/
structure LateDeletes (n : Nat) (w : World Unit) : Prop where
  unsealed : (w.replica ()).sealed = []
  fresh : ¬ (w.replica ()).view.Reaches (physical kindBase sampleRow) ((n + 1) * 2 ^ 20)
  row : ∃ row, readEnvelope (w.replica ()).view (physical kindBase sampleRow) = some row ∧
    (∀ i, row ≠ some (.intent i)) ∧ ∃ storedVer, storedItemOf soleRegion.items row = some (none, storedVer) ∧
      MrecVersion.nextLocal storedVer MrecVersion.wallMax 1 = ⟨MrecVersion.wallMax, n % 2 ^ 32, 1⟩
  last : ∀ k, n = k + 1 → ∃ a ∈ w.arrived (), a.record = lateRecord (k % 2 ^ 32)

/-- With the clock at its end, the stamps go round. -/
theorem nextLocal_late (n : Nat) :
    nextLocal (some ⟨wallMax, n % 2 ^ 32, 1⟩) wallMax 1 = ⟨wallMax, (n + 1) % 2 ^ 32, 1⟩ := by
  simp only [nextLocal, Option.getD_some, Nat.lt_irrefl, if_false]
  by_cases h : n % 2 ^ 32 < logicalMax
  · have hnext : n % 2 ^ 32 + 1 = (n + 1) % 2 ^ 32 := by
      rw [logicalMax] at h
      omega
    rw [if_pos h, hnext]
  · have hnext : 0 = (n + 1) % 2 ^ 32 := by
      rw [logicalMax] at h
      omega
    rw [if_neg h, ← hnext, Nat.min_eq_right (Nat.le_succ _)]

theorem lateStamp_fits (n : Nat) : StampFits ⟨wallMax, n % 2 ^ 32, 1⟩ :=
  ⟨show wallMax < _ by decide, Nat.mod_lt _ (by decide), show 1 < _ by decide⟩

theorem LateDeletes.step (h : LateDeletes n w) (hn : n < 2 ^ 40) :
    ∃ w', w.step soleRegion ⟨(), lateDelete, ⟨n + 1, 0⟩⟩ = some w' ∧ LateDeletes (n + 1) w' ∧
      w'.arrived () = w.arrived () ++ [⟨lateRecord (n % 2 ^ 32), true⟩] := by
  obtain ⟨row, hrow, hcommitted, storedVer, hstored, hnext⟩ := h.row
  have hpack : pack ⟨n + 1, 0⟩ = some ((n + 1) * 2 ^ 20) := by
    have hwall : n + 1 < 2 ^ (64 - logicalBits) := Nat.lt_of_lt_of_le (Nat.succ_lt_succ hn) (by decide)
    rw [pack, if_pos ⟨show 0 < 2 ^ logicalBits by decide, hwall⟩, Nat.add_zero, logicalBits]
  obtain ⟨r, result, happly, hsealed, hnewest⟩ :=
    applyKindEval_lateDelete h.unsealed hpack h.fresh hrow hcommitted hstored hnext
  have hcodec : ReadsBack soleRegion.items.stored (stampedForm lateDelete none ⟨wallMax, n % 2 ^ 32, 1⟩) :=
    tombstoneCodec_readsBack (lateStamp_fits n)
  have hleft : recordLeft soleRegion.items lateDelete r = some (lateRecord (n % 2 ^ 32)) := by
    rw [recordLeft, storedAt_stamped hnewest hcodec]
    rfl
  refine ⟨(w.after () r [⟨lateRecord (n % 2 ^ 32), true⟩]).ship (lateRecord (n % 2 ^ 32)), ?_, ⟨?_, ?_, ?_, ?_⟩, ?_⟩
  · change World.write soleRegion w ⟨(), lateDelete, ⟨n + 1, 0⟩⟩ = _
    rw [World.write, happly]
    simp only [bind_eq_bind, bind_some, if_true, hleft]
  · rw [World.replica_ship, World.replica_after, hsealed]
  · rw [World.replica_ship, World.replica_after]
    rintro ⟨top, htop, hle⟩
    obtain rfl := some.inj (hnewest.symm.trans htop)
    have hle : (n + 1 + 1) * 2 ^ 20 ≤ (n + 1) * 2 ^ 20 := hle
    omega
  · rw [World.replica_ship, World.replica_after, readEnvelope, MemoryEngine.read, hnewest]
    exact ⟨_, rfl, by simp, some ⟨wallMax, n % 2 ^ 32, 1⟩, hcodec.decode, nextLocal_late n⟩
  · rw [World.arrived_ship, World.arrived_after]
    rintro k hk
    obtain rfl := Nat.succ.inj hk
    exact ⟨_, mem_append_right _ (mem_singleton_self _), rfl⟩
  · rw [World.arrived_ship, World.arrived_after]

theorem LateDeletes.start : LateDeletes 0 soleRegion.start where
  unsealed := rfl
  fresh := by
    rintro ⟨top, ⟨⟩, -⟩
  row := ⟨none, rfl, by simp, none, rfl, rfl⟩
  last := by
    rintro k ⟨⟩

theorem World.run_concat {R Cond : Type} [DecidableEq R] {net : Regions R Cond} {w : World R}
    (events : List (RegionEvent R Cond)) (event : RegionEvent R Cond) :
    w.run net (events ++ [event]) = (w.run net events).bind (World.step net · event) := by
  induction events generalizing w with
  | nil =>
    rw [nil_append, World.run, World.run, bind_some]
    exact bind_fun_some _
  | cons first events ih =>
    rw [cons_append, World.run, World.run, bind_assoc]
    exact bind_congr fun next _ => ih

theorem lateDeletes_run (n : Nat) (hn : n ≤ 2 ^ 40) :
    ∃ events w, soleRegion.start.run soleRegion events = some w ∧ LateDeletes n w := by
  induction n with
  | zero => exact ⟨[], _, rfl, .start⟩
  | succ n ih =>
    obtain ⟨events, w, hrun, hdeletes⟩ := ih (Nat.le_of_succ_le hn)
    obtain ⟨w', hstep, hdeletes', -⟩ := hdeletes.step hn
    refine ⟨events ++ [⟨(), lateDelete, ⟨n + 1, 0⟩⟩], w', ?_, hdeletes'⟩
    rw [World.run_concat, hrun, bind_some, hstep]

/-- After enough writes of one item with the clock at its end, a region stamps its own write below what it
stores. -/
theorem local_stamp_falls_back : ∃ events w, soleRegion.start.run soleRegion events = some w ∧
    ¬ (w.arrived ()).Pairwise fun a b => b.own →
      a.record.baseKey soleRegion.items = b.record.baseKey soleRegion.items →
      a.record.ver < b.record.ver := by
  obtain ⟨events, w, hrun, hdeletes⟩ := lateDeletes_run (2 ^ 32) (by decide)
  obtain ⟨w', hstep, -, harrived⟩ := hdeletes.step (by decide)
  obtain ⟨a, ha, hrecord⟩ := hdeletes.last (2 ^ 32 - 1) (by decide)
  refine ⟨events ++ [⟨(), lateDelete, ⟨2 ^ 32 + 1, 0⟩⟩],
    w', by rw [World.run_concat, hrun, bind_some, hstep], fun hrising => ?_⟩
  rw [harrived, pairwise_append] at hrising
  have hlt := hrising.2.2 a ha _ (mem_singleton_self _) rfl (by rw [hrecord]; rfl)
  rw [hrecord] at hlt
  exact absurd hlt (by decide)

end AnimusDb.Tablet
