import AnimusDb.TabletMirror
import AnimusDb.TabletRestart

/-! The snapshot image of a tablet: the newest row of every key of its scopes, merged into the engine of a
replica that is behind. What the markers say is not in it. -/

open AnimusDb.Items List Option
open AnimusDb.Lsm (MemoryEngine MergeOp Key Version readOptBytes)
open AnimusDb.Lsm.MemoryEngine (Similar DeadBelow Trace)
open scoped AnimusDb.Lsm
open ByteCodec (Bytes be andThen result)
open RustText (Text)

namespace AnimusDb.Tablet

variable {op : MergeOp} {tablet lastIndex : Nat} {m : MemoryEngine}

/-- The kind under which an image carries the markers of resolved keys to replicas that may not know them. -/
def kindWireResolvedMarker : UInt8 := 0x80

structure ImageEntry where
  kind : UInt8
  key : Bytes
  value : Option Bytes
  version : Nat
deriving DecidableEq

structure EngineImage where
  maxTs : Option HlcTimestamp
  entries : List ImageEntry

/-- The kind and key of an engine key, where a scope of the tablet claims it. -/
def claimed : Bytes → Option (UInt8 × Bytes)
  | [] => none
  | kind :: key => if allKinds.contains kind then some (kind, key) else none

/-- A current intent in its previous version, and the prior that version cannot express. -/
def downgradeIntentToV1WithPrior : Bytes → Option (Bytes × Option Bytes)
  | [] => none
  | tag :: body =>
    if tag = tagIntent then
      match (andThen readIntentV1Body fun i => andThen readOptBytes fun prior => result (i, prior)) body with
      | some ((i, prior), []) => some (encodeIntentV1 i, prior)
      | _ => none
    else none

/-- What the image carries for one row. Behind a closed gate, markers travel under their own kind and an
intent in its previous version, with its prior one version below it. -/
def imageRows (gateOpen : Bool) (kind : UInt8) (key : Bytes) (value : Option Bytes) (version : Nat) :
    List ImageEntry :=
  if gateOpen || kind ≠ kindBase then [⟨kind, key, value, version⟩]
  else if isResolvedMarkerKey key then [⟨kindWireResolvedMarker, key, value, version⟩]
  else
    match value.bind downgradeIntentToV1WithPrior with
    | none => [⟨kind, key, value, version⟩]
    | some (v1, prior) =>
      (if version = 0 then [] else prior.toList.map fun p =>
        ⟨kind, key, some (encodeCommitted p), version - 1⟩) ++ [⟨kind, key, some v1, version⟩]

def engineImage (gateOpen : Bool) (m : MemoryEngine) (maxAppliedTs : Option HlcTimestamp) : EngineImage where
  maxTs := maxAppliedTs
  entries := m.entriesWithTombstones.flatMap fun row =>
    match claimed row.1 with
    | none => []
    | some (kind, key) => imageRows gateOpen kind key row.2.1 row.2.2

/-- The merge of one entry; a kind that has no scope is dropped. -/
def imageOp (e : ImageEntry) : Option MergeOp :=
  let kind := if e.kind = kindWireResolvedMarker && isResolvedMarkerKey e.key then kindBase else e.kind
  if allKinds.contains kind then some ⟨physical kind e.key, e.version, e.value⟩ else none

def appliedMarker (tablet lastIndex : Nat) : MergeOp :=
  ⟨markerKey "cp_applied" tablet, lastIndex, some (be 8 lastIndex)⟩

def hwmMarker (tablet version : Nat) (ts : HlcTimestamp) : MergeOp :=
  ⟨markerKey "cp_hlc_hwm" tablet, version, some (putTs ts)⟩

def installOps (tablet lastIndex : Nat) (image : EngineImage) : Option (List MergeOp) :=
  let rows := image.entries.filterMap imageOp ++ [appliedMarker tablet lastIndex]
  match image.maxTs with
  | none => some rows
  | some ts => (pack ts).map fun version => rows ++ [hwmMarker tablet version ts]

def installEngineImage (tablet lastIndex : Nat) (image : EngineImage) (r : Replica) : Option Replica :=
  (installOps tablet lastIndex image).map r.commit

/-- A row of one of the tablet's scopes. -/
def RowKey (key : Bytes) : Prop := ∃ kind logical, allKinds.contains kind = true ∧ key = physical kind logical

variable {key : Bytes}

theorem claimed_eq_some {kind : UInt8} {logical : Bytes} :
    claimed key = some (kind, logical) ↔ allKinds.contains kind = true ∧ key = physical kind logical := by
  cases key with
  | nil => simp [claimed, physical]
  | cons lead rest =>
    rw [claimed, physical, cons.injEq]
    constructor
    · intro h
      split_ifs at h with hkind
      cases h
      exact ⟨hkind, rfl, rfl⟩
    · rintro ⟨hkind, rfl, rfl⟩
      rw [if_pos hkind]

theorem imageOp_of_claimed {kind : UInt8} (hkind : allKinds.contains kind = true) (logical : Bytes)
    (value : Option Bytes) (version : Nat) : imageOp ⟨kind, logical, value, version⟩ =
      some ⟨physical kind logical, version, value⟩ := by
  have hwire : kind ≠ kindWireResolvedMarker := by
    rintro rfl
    exact absurd hkind (by decide)
  have hsame : (if (kind = kindWireResolvedMarker &&
    isResolvedMarkerKey logical : Bool) then kindBase else kind) = kind :=
    if_neg (by simp [hwire])
  rw [imageOp]
  dsimp only
  rw [hsame, if_pos hkind]

theorem mem_imageOps (maxTs : Option HlcTimestamp) :
    op ∈ (engineImage true m maxTs).entries.filterMap imageOp ↔ RowKey op.key ∧ m.newest op.key = some op := by
  rw [mem_filterMap]
  constructor
  · rintro ⟨e, he, hop⟩
    obtain ⟨row, hrow, he⟩ := mem_flatMap.mp he
    split at he
    · cases he
    · rename_i kind logical hclaimed
      obtain ⟨hkind, hkey⟩ := claimed_eq_some.mp hclaimed
      obtain rfl := mem_singleton.mp he
      rw [imageOp_of_claimed hkind, ← hkey] at hop
      cases hop
      exact ⟨⟨kind, logical, hkind, hkey⟩, MemoryEngine.mem_entriesWithTombstones.mp hrow⟩
  · rintro ⟨⟨kind, logical, hkind, hkey⟩, hnewest⟩
    refine ⟨⟨kind, logical, op.value, op.version⟩, mem_flatMap.mpr ⟨(op.key, op.value, op.version), ?_, ?_⟩, ?_⟩
    · exact MemoryEngine.mem_entriesWithTombstones.mpr hnewest
    · rw [claimed_eq_some.mpr ⟨hkind, hkey⟩]
      exact mem_singleton_self _
    · rw [imageOp_of_claimed hkind, ← hkey]

variable {maxTs : Option HlcTimestamp} {ops : List MergeOp}

variable {m' follower leader : MemoryEngine} {bound : Nat}

/-- The keys on which two replicas of a tablet are compared: its rows, and the marks that its flags are read
from. -/
def TabletKey (tablet : Nat) (key : Bytes) : Prop := RowKey key ∨ MarksFork tablet key

theorem markerKey_not_tabletKey {tag : String} (hseal : utf8 tag.toList ≠ utf8 "cp_seal".toList)
    (hsplit : utf8 tag.toList ≠ utf8 "cp_split".toList) : ¬ TabletKey tablet (markerKey tag tablet) := by
  rintro (⟨kind, logical, hkind, h⟩ | h | h)
  · obtain ⟨tail, htail⟩ : ∃ tail, escape reservedNamespace = 0x5F :: tail := ⟨_, rfl⟩
    rw [markerKey, htail, physical] at h
    rw [← (cons.inj h).1] at hkind
    exact absurd hkind (by decide)
  · rw [← append_nil (markerKey tag tablet)] at h
    exact hseal (markerKey_leads_tag h).symm
  · have h : markerKey tag tablet <+: markerKey "cp_split" tablet ++ [] := by
      rw [h, append_nil]
      exact prefix_refl _
    exact hsplit (markerKey_leads_tag h)

/-- The merges of an install at the keys of a tablet are the leader's newest rows. -/
theorem mem_installOps (h : installOps tablet lastIndex (engineImage true leader maxTs) = some ops)
    (hkey : TabletKey tablet op.key) : op ∈ ops ↔ RowKey op.key ∧ leader.newest op.key = some op := by
  have happlied : op ≠ appliedMarker tablet lastIndex := by
    rintro rfl
    exact markerKey_not_tabletKey (by decide) (by decide) hkey
  rw [← mem_imageOps maxTs]
  unfold installOps at h
  dsimp only at h
  split at h
  · cases h
    simp [happlied]
  · rename_i ts _
    obtain ⟨version, -, rfl⟩ := map_eq_some_iff.mp h
    have hhwm : op ≠ hwmMarker tablet version ts := by
      rintro rfl
      exact markerKey_not_tabletKey (by decide) (by decide) hkey
    simp [happlied, hhwm]

/-- What an install leaves at a row: the leader's newest record, or the follower's own where none of the
leader's is above it. -/
theorem newest_install (follower : MemoryEngine)
    (h : installOps tablet lastIndex (engineImage true leader maxTs) = some ops) (hkey : RowKey key) :
    (follower.mergeAll ops).newest key = leader.newest key ∨
      (follower.mergeAll ops).newest key = follower.newest key ∧
        ∀ l, leader.newest key = some l → ∃ f, follower.newest key = some f ∧ l.version ≤ f.version := by
  rcases MemoryEngine.newest_mergeAll follower ops key with hsame | ⟨op, hop, rfl, hnew⟩
  · refine .inr ⟨hsame, fun l hl => ?_⟩
    obtain rfl : l.key = key := (MemoryEngine.newest_eq_some hl).2.1
    obtain ⟨top, htop, hle⟩ := MemoryEngine.reaches_mergeAll follower
      ((mem_installOps h (.inl hkey)).mpr ⟨hkey, hl⟩)
    exact ⟨top, hsame.symm.trans htop, hle⟩
  · exact .inl (hnew.trans ((mem_installOps h (.inl hkey)).mp hop).2.symm)

variable {Cond : Type} {host : Host Cond} {r : Replica} {log : List (LogEntry Cond)}

variable {m'' : MemoryEngine} {r' r'' : Replica}
  {out : ApplyOutcome}

/-- Newest records give way only to newer ones from the bound up. -/
def Advances (bound : Nat) (m m' : MemoryEngine) : Prop :=
  ∀ key, m'.newest key = m.newest key ∨
    ∃ new, m'.newest key = some new ∧ bound ≤ new.version ∧ ∀ old, m.newest key = some old →
    old.version < new.version

theorem Advances.mergeSlot (h : Advances bound m m') (hop : bound ≤ op.version) :
    Advances bound m (m'.mergeSlot op).2 := by
  intro key
  rcases MemoryEngine.newest_mergeSlot m' op key with hsame | ⟨rfl, hwins, hnew⟩
  · rw [hsame]
    exact h key
  · refine .inr ⟨op, hnew, hop, fun old hold => ?_⟩
    rcases h op.key with heq | ⟨mid, hmid, -, hlt⟩
    · exact hwins old (heq.trans hold)
    · exact (hlt old hold).trans (hwins mid hmid)

theorem Advances.trans (h : Advances bound m m') (h' : Advances bound m' m'') : Advances bound m m'' := by
  intro key
  rcases h' key with heq | ⟨new, hnew, hle, hlt⟩
  · rw [heq]
    exact h key
  · refine .inr ⟨new, hnew, hle, fun old hold => ?_⟩
    rcases h key with heq | ⟨mid, hmid, -, hmidLt⟩
    · exact hlt old (heq.trans hold)
    · exact (hmidLt old hold).trans (hlt mid hmid)

theorem Advances.reaches (h : Advances bound m m') {key : Bytes} {old : MergeOp}
    (hold : m.newest key = some old) : ∃ new, m'.newest key = some new ∧ old.version ≤ new.version := by
  rcases h key with heq | ⟨new, hnew, -, hlt⟩
  · exact ⟨old, heq.trans hold, le_rfl⟩
  · exact ⟨new, hnew, (hlt old hold).le⟩

/-- What entries that neither seal nor raise the ceiling do to a replica: rows move up, everything else stays. -/
structure Passes (tablet bound : Nat) (r r' : Replica) : Prop where
  rows : Advances bound r.view r'.view
  marks : ∀ key, MarksFork tablet key → r'.view.newest key = r.view.newest key
  sealed : r'.sealed = r.sealed
  frozen : r'.frozen = r.frozen
  ceiling : r'.committedCeiling = r.committedCeiling
  clock : ∀ last, r.maxAppliedTs = some last → ∃ last', r'.maxAppliedTs = some last' ∧ last ≤ last'

theorem Passes.refl (tablet bound : Nat) (r : Replica) : Passes tablet bound r r :=
  ⟨fun _ => .inl rfl, fun _ _ => rfl, rfl, rfl, rfl, fun last hlast => ⟨last, hlast, le_rfl⟩⟩

theorem Passes.trans (h : Passes tablet bound r r') (h' : Passes tablet bound r' r'') :
    Passes tablet bound r r'' where
  rows := h.rows.trans h'.rows
  marks key hkey := (h'.marks key hkey).trans (h.marks key hkey)
  sealed := h'.sealed.trans h.sealed
  frozen := h'.frozen.trans h.frozen
  ceiling := h'.ceiling.trans h.ceiling
  clock last hlast := by
    obtain ⟨mid, hmid, hle⟩ := h.clock last hlast
    obtain ⟨last', hlast', hle'⟩ := h'.clock mid hmid
    exact ⟨last', hlast', hle.trans hle'⟩

theorem passes_of_effect {cmd : KvCommand Cond} (h : Effect host cmd r r')
    (hcmd : Mirrorable bound r.view cmd) (hseals : seals cmd = false) (hraises : raisesCeiling cmd = false) :
    Passes tablet bound r r' where
  rows := h.view.preserves (fun _ _ hcur hop => hcur.mergeSlot (hcmd.version_le hop)) fun _ => .inl rfl
  marks key hkey := by
    refine h.view.preserves (I := fun m => m.newest key = r.view.newest key) (fun cur op hcur hop => ?_) rfl
    rw [MemoryEngine.newest_mergeSlot_of_ne fun heq => hop.not_marksFork hseals (heq ▸ hkey), hcur]
  sealed := (h.flags hseals).1
  frozen := (h.flags hseals).2
  ceiling := h.ceiling hraises
  clock := h.clock

variable {outs : List ApplyOutcome}

/-- Every entry of the log merges from the bound up. -/
def Later (bound : Nat) (log : List (LogEntry Cond)) : Prop := ∀ entry ∈ log, Above bound entry.command

/-- Every entry of the log is plain where the replica meets it. -/
def PlainAlong (host : Host Cond) (r : Replica) (log : List (LogEntry Cond)) : Prop :=
  Along host (fun r entry => Plain r.view entry.command) r log

theorem passes_of_applyReporting (h : applyReporting host r log = some (r', outs)) (hplain : PlainAlong host r log)
    (hlater : Later bound log) (hquiet : ∀ entry ∈ log, seals entry.command = false ∧
      raisesCeiling entry.command = false) : Passes tablet bound r r' := by
  induction log generalizing r outs with
  | nil =>
    cases h
    exact .refl _ _ _
  | cons entry log ih =>
    obtain ⟨⟨next, out⟩, hnext, h⟩ := bind_eq_some_iff.mp h
    obtain ⟨⟨last, outs'⟩, hlast, h⟩ := bind_eq_some_iff.mp h
    cases h
    obtain ⟨hseals, hraises⟩ := hquiet entry mem_cons_self
    have hfirst : Passes tablet bound r next := passes_of_effect (applyEntry_effect hnext)
      ⟨hplain.1, hlater entry mem_cons_self⟩ hseals hraises
    exact hfirst.trans (ih hlast (hplain.2 next out hnext) (fun e he => hlater e (mem_cons_of_mem _ he))
      fun e he => hquiet e (mem_cons_of_mem _ he))

variable {dropped : List (Key × Version)} {front : List ApplyOutcome}

variable {start ideal final : Replica}
  {all : List ApplyOutcome} {l l' : Life} {events : List LifeEvent}

/-- A restart that finds what the replica had: nothing was queued, nothing is applied again, and the flags
are those that the markers in its engine tell. -/
structure Resumes (tablet : Nat) (l : Life) (resume : Nat) : Prop where
  applied : resume = l.applied
  queued : l.replica.pending = []
  sealed : (Replica.start tablet l.replica.engine).sealed = l.replica.sealed
  frozen : (Replica.start tablet l.replica.engine).frozen = l.replica.frozen
  ceiling : (Replica.start tablet l.replica.engine).committedCeiling = l.replica.committedCeiling

/-- A replica that loses nothing in a crash, and whose engine reclaims only below every version still to be
merged. -/
def Steady (tablet : Nat) (log : List (LogEntry Cond)) (l : Life) : LifeEvent → Prop
  | .apply => True
  | .flush => True
  | .reclaim floor _ =>
    (∀ op ∈ l.replica.pending, floor < op.version) ∧ Later (floor + 1) (log.drop l.applied)
  | .crash resume => Resumes tablet l resume
  | .crashInside _ _ => False

/-- The replica is abreast of one that has applied the same entries one by one. -/
structure Tracks (host : Host Cond) (log : List (LogEntry Cond)) (start : Replica) (l : Life) (bound : Nat)
    (ideal : Replica) (outs : List ApplyOutcome) : Prop where
  applied : applyReporting host start (log.take l.applied) = some (ideal, outs)
  abreast : Abreast (TabletKey host.tablet) bound ideal l.replica
  queued : ∀ op ∈ l.replica.pending, bound ≤ op.version
  later : Later bound (log.drop l.applied)

theorem tabletKey_base (tablet : Nat) (key : Bytes) : TabletKey tablet (physical kindBase key) :=
  .inl ⟨kindBase, key, rfl, rfl⟩

theorem Later.mono {log' : List (LogEntry Cond)} (h : Later bound log) (hsub : log' ⊆ log) : Later bound log' :=
  fun entry hentry => h entry (hsub hentry)

theorem Later.sup {bound' : Nat} (h : Later bound log) (h' : Later bound' log) :
    Later (max bound bound') log :=
  fun entry hentry => {
    version ts hts version hversion :=
      max_le ((h entry hentry).version ts hts version hversion) ((h' entry hentry).version ts hts version hversion)
    seeded rows ts hcmd row hrow :=
      max_le ((h entry hentry).seeded rows ts hcmd row hrow) ((h' entry hentry).seeded rows ts hcmd row hrow) }

theorem abreast_refl (K : Key → Prop) (r : Replica) : Abreast K bound r r :=
  ⟨.refl _, rfl, rfl, rfl, fun last hlast => ⟨last, hlast, le_rfl⟩⟩

theorem applyReporting_take (h : applyReporting host start log = some (final, all)) (n : Nat) :
    ∃ r front rest, applyReporting host start (log.take n) = some (r, front) ∧
      applyReporting host r (log.drop n) = some (final, rest) ∧ all = front ++ rest := by
  rw [← take_append_drop n log, applyReporting_append] at h
  obtain ⟨⟨r, front⟩, hfront, h⟩ := bind_eq_some_iff.mp h
  obtain ⟨⟨last, rest⟩, hrest, h⟩ := map_eq_some_iff.mp h
  cases h
  exact ⟨r, front, rest, hfront, hrest, rfl⟩

theorem PlainAlong.drop (h : PlainAlong host start log) {n : Nat}
    (hfront : applyReporting host start (log.take n) = some (r, front)) : PlainAlong host r (log.drop n) :=
  Along.rest ((take_append_drop n log).symm ▸ h) hfront

variable {entry : LogEntry Cond}

theorem Tracks.apply {out : ApplyOutcome} (h : Tracks host log start l bound ideal outs)
    (hplain : PlainAlong host start log)
    (hideal : applyReporting host start log = some (final, all)) (hentry : log[l.applied]? = some entry)
    (happly : applyEntry host l.replica entry = some (r, out)) :
    ∃ ideal' outs', Tracks host log start { l with replica := r, applied := l.applied + 1 } bound ideal' outs' := by
  obtain ⟨cur, front, rest, hfront, hrest, -⟩ := applyReporting_take hideal l.applied
  obtain ⟨rfl, rfl⟩ := Prod.mk.inj (some.inj (h.applied.symm.trans hfront))
  obtain ⟨hlt, rfl⟩ := List.getElem?_eq_some_iff.mp hentry
  have hnextPlain := hplain.drop hfront
  rw [drop_eq_getElem_cons hlt] at hrest hnextPlain
  have hlater := h.later
  rw [drop_eq_getElem_cons hlt] at hlater
  obtain ⟨⟨next, out'⟩, hnext, -⟩ := bind_eq_some_iff.mp hrest
  have hmirrorable : Mirrorable bound ideal.view log[l.applied].command :=
    ⟨hnextPlain.1, hlater _ mem_cons_self⟩
  obtain ⟨⟨r', out''⟩, happly', habreast, -⟩ :=
    h.abreast.applyEntry (tabletKey_base host.tablet) hmirrorable _ hnext
  obtain ⟨rfl, rfl⟩ := Prod.mk.inj (some.inj (happly.symm.trans happly'))
  refine ⟨next, outs ++ [out'], ?_, habreast, fun op hop => ?_, ?_⟩
  · rw [take_add_one, hentry, applyReporting_append, hfront, bind_some, toList_some, applyReporting, hnext]
    rfl
  · rcases (applyEntry_effect happly).queued op hop with hold | ⟨cur, hwrite⟩
    · exact h.queued op hold
    · exact hmirrorable.version_le hwrite
  · exact fun e he => hlater e (mem_cons_of_mem _ he)

theorem Tracks.flush (h : Tracks host log start l bound ideal outs) {durable : Nat} :
    Tracks host log start { l with replica := l.replica.flushPending, durable := durable } bound ideal outs where
  applied := h.applied
  abreast := by
    refine ⟨?_, ?_, ?_, ?_, ?_⟩
    · rw [Replica.view_flushPending]
      exact h.abreast.view
    · simp [h.abreast.sealed]
    · simp [h.abreast.frozen]
    · simp [h.abreast.ceiling]
    · simpa using h.abreast.clock
  queued := by simp
  later := h.later

theorem similar_reclaim {K : Key → Prop} {m : MemoryEngine} {floor : Version}
    (h : m.Reclaimable floor dropped) : Similar K (floor + 1) m (m.reclaim dropped) := by
  intro key _
  rcases MemoryEngine.newest_reclaim h key with hsame | ⟨r, hr, hdead, hfloor, hgone⟩
  · exact .inl hsame
  · refine .inr ⟨fun s hs => ?_, fun s hs => ?_⟩
    · obtain rfl := some.inj (hr.symm.trans hs)
      exact ⟨hdead, Nat.lt_succ_of_le hfloor⟩
    · cases hgone.symm.trans hs

theorem Tracks.reclaim {floor : Version} (h : Tracks host log start l bound ideal outs)
    (hdrop : l.replica.engine.Reclaimable floor dropped) (hpending : ∀ op ∈ l.replica.pending, floor < op.version)
    (hlater : Later (floor + 1) (log.drop l.applied)) : Tracks host log start
      { l with replica := { l.replica with base := l.replica.engine.reclaim dropped, journal := [] } }
      (max bound (floor + 1)) ideal outs where
  applied := h.applied
  abreast := by
    refine ⟨?_, h.abreast.sealed, h.abreast.frozen, h.abreast.ceiling, h.abreast.clock⟩
    have hreclaimed : Similar (TabletKey host.tablet) (floor + 1) l.replica.view
        ((l.replica.engine.reclaim dropped).mergeAll l.replica.pending) :=
        (similar_reclaim hdrop).mergeAll hpending
    exact (h.abreast.view.raise (le_max_left _ _)).trans (hreclaimed.raise (le_max_right _ _))
  queued op hop := max_le (h.queued op hop) (hpending op hop)
  later := h.later.sup hlater

theorem Tracks.crash {resume : Nat} (h : Tracks host log start l bound ideal outs)
    (hresumes : Resumes host.tablet l resume) :
    Tracks host log start { l with replica := .start host.tablet l.replica.engine, applied := resume } bound
      ideal outs where
  applied := hresumes.applied ▸ h.applied
  abreast := by
    refine ⟨?_, hresumes.sealed.trans h.abreast.sealed, hresumes.frozen.trans h.abreast.frozen,
      hresumes.ceiling.trans h.abreast.ceiling, by rintro last ⟨⟩⟩
    have hview : (Replica.start host.tablet l.replica.engine).view = l.replica.view :=
      (Replica.view_eq_engine hresumes.queued).symm
    exact hview ▸ h.abreast.view
  queued := by simp [Replica.start]
  later := hresumes.applied ▸ h.later

theorem Tracks.run (hplain : PlainAlong host start log)
    (hideal : applyReporting host start log = some (final, all))
    (hrun : l.run host log events = some l') (hsteady : l.Along host log (Steady host.tablet log) events)
    (h : ∃ bound ideal outs, Tracks host log start l bound ideal outs) :
    ∃ bound ideal outs, Tracks host log start l' bound ideal outs := by
  refine Life.run_preserves (I := fun l => ∃ bound ideal outs, Tracks host log start l bound ideal outs) hrun
    hsteady (fun l event l' htracks hevent hstep => ?_) h
  obtain ⟨bound, ideal, outs, htracks⟩ := htracks
  cases Life.step_cases hstep with
  | apply hentry happly =>
    obtain ⟨ideal', outs', hnext⟩ := htracks.apply hplain hideal hentry happly
    exact ⟨bound, ideal', outs', hnext⟩
  | flush => exact ⟨bound, ideal, outs, htracks.flush⟩
  | reclaim hdrop => exact ⟨_, ideal, outs, htracks.reclaim hdrop hevent.1 hevent.2⟩
  | crash => exact ⟨bound, ideal, outs, htracks.crash hevent⟩
  | crashInside => exact hevent.elim

theorem tracks_start (host : Host Cond) (log : List (LogEntry Cond)) (m : MemoryEngine) :
    Tracks host log (.start host.tablet m) (.start host.tablet m) 0 (.start host.tablet m) [] where
  applied := rfl
  abreast := abreast_refl _ _
  queued := by simp [Life.start, Replica.start]
  later := fun _ _ => ⟨fun _ _ _ _ => Nat.zero_le _, fun _ _ _ _ _ => Nat.zero_le _⟩

variable {now before : Replica}
  {outs' : List ApplyOutcome} {leader follower : Life} {bound' : Nat} {installed : Replica}

/-- Wherever a follower holds a live row, the leader's newest record of the key is that row or a newer one: no
tombstone that superseded it has been reclaimed. -/
def Supersedes (leader follower : MemoryEngine) : Prop :=
  ∀ key f, RowKey key → follower.newest key = some f → f.value.isSome →
    ∃ l, leader.newest key = some l ∧ (l = f ∨ f.version < l.version)

variable {lead behind : MemoryEngine}
  {f : MergeOp}

/-- The follower's own record stays: it is the newest of the log, or a tombstone like it. -/
theorem similar_kept (hkey : RowKey key) (hlead : Similar (TabletKey tablet) bound' m' lead)
    (hbehind : Similar (TabletKey tablet) bound m behind) (hrows : Advances bound m m')
    (hsupersedes : Supersedes lead behind)
    (hf : behind.newest key = some f) (habove : ∀ l, lead.newest key = some l → l.version ≤ f.version) :
    m'.newest key = some f ∨ DeadBelow (max bound bound') m' key ∧ f.value = none ∧
      f.version < max bound bound' := by
  rcases hlead key (.inl hkey) with hsame' | ⟨hdead', hdeadLead⟩ <;>
    rcases hbehind key (.inl hkey) with hsame | ⟨hdead, hdeadBehind⟩
  · -- Both hold what the log left; the record of the log does not go down.
    rcases hrows key with heq | ⟨new, hnew, -, hlt⟩
    · exact .inl (heq.trans (hsame.symm.trans hf))
    · exact absurd (hlt f (hsame.symm.trans hf)) (habove new (hsame'.trans hnew)).not_gt
  · -- The follower lost a tombstone; a newer record of the log would be above it.
    obtain ⟨hvalue, hversion⟩ := hdeadBehind f hf
    refine .inr ⟨?_, hvalue, hversion.trans_le (le_max_left _ _)⟩
    rcases hrows key with heq | ⟨new, hnew, hge, -⟩
    · exact fun r hr => hdead.raise (le_max_left _ _) r (heq.symm.trans hr)
    · exact absurd (hge.trans (habove new (hsame'.trans hnew))) hversion.not_ge
  · obtain ⟨new, hnew, hle⟩ := hrows.reaches (hsame.symm.trans hf)
    refine .inr ⟨hdead'.raise (le_max_right _ _), ?_, (hle.trans_lt (hdead' new hnew).2).trans_le
      (le_max_right _ _)⟩
    -- nothing live of the follower is above the leader's tombstone
    by_contra hlive
    obtain ⟨l, hl, rfl | hlt⟩ := hsupersedes key f hkey hf (isSome_iff_ne_none.mpr hlive)
    · exact hlive (hdeadLead l hl).1
    · exact (habove l hl).not_gt hlt
  · obtain ⟨hvalue, hversion⟩ := hdeadBehind f hf
    exact .inr ⟨hdead'.raise (le_max_right _ _), hvalue, hversion.trans_le (le_max_left _ _)⟩

/-- An install brings the rows of a follower abreast of the replica that applied every entry. -/
theorem similar_install (hops : installOps tablet lastIndex (engineImage true lead maxTs) = some ops)
    (hlead : Similar (TabletKey tablet) bound' m' lead) (hbehind : Similar (TabletKey tablet) bound m behind)
    (hrows : Advances bound m m') (hmarks : ∀ key, MarksFork tablet key → m'.newest key = m.newest key)
    (hsupersedes : Supersedes lead behind) :
      Similar (TabletKey tablet) (max bound bound') m' (behind.mergeAll ops) := by
  intro key hkey
  rcases hkey with hrow | hmark
  · rcases newest_install behind hops hrow with hnew | ⟨hold, habove⟩
    · simpa only [DeadBelow, hnew] using hlead.raise (le_max_right bound bound') key (.inl hrow)
    · cases hf : behind.newest key with
      | none =>
        have hnone : lead.newest key = none := by
          cases hl : lead.newest key with
          | none => rfl
          | some l =>
            obtain ⟨f, hf', -⟩ := habove l hl
            cases hf.symm.trans hf'
        have hinstalled := hlead.raise (le_max_right bound bound') key (.inl hrow)
        simpa only [DeadBelow, hnone, hold, hf] using hinstalled
      | some f =>
        have hbelow : ∀ l, lead.newest key = some l → l.version ≤ f.version := by
          intro l hl
          obtain ⟨f', hf', hle⟩ := habove l hl
          obtain rfl := some.inj (hf.symm.trans hf')
          exact hle
        rcases similar_kept hrow hlead hbehind hrows hsupersedes hf hbelow with hsame | ⟨hdead, hvalue, hversion⟩
        · exact .inl (hold.trans (hf.trans hsame.symm))
        · refine .inr ⟨hdead, fun r hr => ?_⟩
          obtain rfl := some.inj (hf.symm.trans (hold.symm.trans hr))
          exact ⟨hvalue, hversion⟩
  · -- an image has no marks of forks
    have hkept : (behind.mergeAll ops).newest key = behind.newest key := by
      refine MemoryEngine.newest_mergeAll_of_ne fun op hop heq => ?_
      subst heq
      obtain ⟨⟨kind, logical, hkind, hphysical⟩, -⟩ := (mem_installOps hops (.inr hmark)).mp hop
      exact physical_not_marksFork hkind logical (hphysical ▸ hmark)
    have hinstalled := hbehind.raise (le_max_left bound bound') key (.inr hmark)
    simpa only [DeadBelow, hkept, hmarks key hmark] using hinstalled

/-- Two replicas of one log, and what the entries between them have done. -/
theorem Tracks.passes (h : Tracks host log start follower bound before outs)
    (h' : Tracks host log start leader bound' now outs')
    (hplain : PlainAlong host start log) (hbehind : follower.applied ≤ leader.applied)
    (hquiet : ∀ entry ∈ (log.take leader.applied).drop follower.applied,
      seals entry.command = false ∧ raisesCeiling entry.command = false) :
      Passes host.tablet bound before now := by
  obtain ⟨gap, hgap⟩ := Nat.exists_eq_add_of_le hbehind
  have happlied := h'.applied
  rw [hgap, take_add, applyReporting_append, h.applied, bind_some] at happlied
  obtain ⟨⟨last, rest⟩, hrest, hlast⟩ := map_eq_some_iff.mp happlied
  cases hlast
  rw [drop_take, hgap, Nat.add_sub_cancel_left] at hquiet
  have hrestPlain : PlainAlong host before ((log.drop follower.applied).take gap) := by
    have hall := hplain.drop h.applied
    rw [← take_append_drop gap (log.drop follower.applied)] at hall
    exact hall.front
  exact passes_of_applyReporting hrest hrestPlain (h.later.mono (take_subset gap _)) hquiet

/-- An install brings a follower abreast of the replica that applied every entry. -/
theorem Tracks.install (h : Tracks host log start follower bound before outs)
    (h' : Tracks host log start leader bound' now outs')
    (hpasses : Passes host.tablet bound before now) (hflushed : follower.replica.pending = [])
    (hflushed' : leader.replica.pending = [])
      (hsupersedes : Supersedes leader.replica.engine follower.replica.engine)
    (hinstall : installEngineImage host.tablet leader.applied
      (engineImage true leader.replica.engine maxTs) follower.replica = some installed) :
    Abreast (TabletKey host.tablet) (max bound bound') now installed := by
  obtain ⟨ops, hops, rfl⟩ := map_eq_some_iff.mp hinstall
  have hfollower := h.abreast.view
  have hleader := h'.abreast.view
  rw [Replica.view_eq_engine hflushed] at hfollower
  rw [Replica.view_eq_engine hflushed'] at hleader
  refine ⟨?_, h.abreast.sealed.trans hpasses.sealed.symm, h.abreast.frozen.trans hpasses.frozen.symm,
    h.abreast.ceiling.trans hpasses.ceiling.symm, fun last' hlast' => ?_⟩
  · have hview : (follower.replica.commit ops).view = follower.replica.engine.mergeAll ops := by
      rw [Replica.view_eq_engine (show (follower.replica.commit ops).pending = [] from hflushed),
        Replica.engine_commit]
    rw [hview]
    exact similar_install hops hleader hfollower hpasses.rows hpasses.marks hsupersedes
  · obtain ⟨mid, hmid, hle⟩ := h.abreast.clock last' hlast'
    obtain ⟨last, hlast, hle'⟩ := hpasses.clock mid hmid
    exact ⟨last, hlast, hle.trans hle'⟩

/-- A row seeded and deleted, another row, and a write that expects the first to be gone. -/
def sampleRowLog : List (LogEntry Unit) := sampleLog
  [.seedBatch [⟨kindBase, sampleKey, some (encodeCommitted [1]), 2 ^ 20⟩] ⟨1, 0⟩, .delete sampleKey ⟨2, 0⟩,
    .put (sampleKey ++ [0x62]) [2] ⟨3, 0⟩, .cas sampleKey none [3] ⟨4, 0⟩]

/-- A leader that restarts after three entries and whose engine then drops the deleted value. -/
def sampleLeaderEvents : List LifeEvent :=
  [.apply, .apply, .apply, .flush] ++ [.crash 3] ++
    [.reclaim (2 * 2 ^ 20) [(physical kindBase sampleKey, 2 ^ 20)]]

def sampleFollowerEvents : List LifeEvent := [.apply, .flush]

theorem sampleRowLog_plain : PlainAlong plainHost freshReplica sampleRowLog := by
  refine ⟨?_, fun _ _ _ => ⟨?_, fun _ _ _ => ⟨?_, fun _ _ _ => ⟨?_, fun _ _ _ => trivial⟩⟩⟩⟩ <;>
    exact ⟨by simp, by simp⟩

theorem sampleLeaderEvents_steady :
    (Life.start 1 .empty).Along plainHost sampleRowLog (Steady 1 sampleRowLog) sampleLeaderEvents := by
  refine Life.Along.concat (Life.Along.concat
    ⟨trivial, fun _ _ => ⟨trivial, fun _ _ => ⟨trivial, fun _ _ => ⟨trivial, fun _ _ => trivial⟩⟩⟩⟩
    fun l hl => ?_) fun l hl => ?_
  · obtain ⟨l', hl', happlied, hpending, hmarks, hsealed, hfrozen, hceiling⟩ :
        ∃ l ∈ (Life.start 1 .empty).run plainHost sampleRowLog [.apply, .apply, .apply, .flush],
          l.applied = 3 ∧ l.replica.pending = [] ∧ (sealedFrom 1 l.replica.engine).isEmpty ∧
          l.replica.sealed.isEmpty ∧
          l.replica.frozen = false ∧ ceilingFrom 1 l.replica.engine = l.replica.committedCeiling := by
            decide +kernel
    obtain rfl := some.inj (hl.symm.trans hl')
    rw [List.isEmpty_iff] at hmarks hsealed
    refine ⟨happlied.symm, hpending, hmarks.trans hsealed.symm, ?_, hceiling⟩
    rw [Replica.start, hmarks, hfrozen]
    rfl
  · have hfacts : ((Life.start 1 .empty).run plainHost sampleRowLog
      ([.apply, .apply, .apply, .flush] ++ [.crash 3])).map
        (fun l => (l.replica.pending, l.applied)) = some ([], 3) := by decide +kernel
    rw [hl] at hfacts
    obtain ⟨hpending, happlied⟩ := Prod.mk.inj (some.inj hfacts)
    refine ⟨by simp [hpending], ?_⟩
    rw [happlied]
    intro entry hentry
    obtain rfl := mem_singleton.mp hentry
    refine ⟨fun ts hts version hversion => ?_, by rintro rows ts ⟨⟩⟩
    cases hts
    cases hversion
    decide

end AnimusDb.Tablet
