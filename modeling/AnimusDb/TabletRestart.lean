import AnimusDb.TabletEffects

/-! The life of one replica over a committed log: it applies entries, flushes its queue, loses its memory in a
crash at any storage call and starts again from an earlier entry, while its engine reclaims old records. -/

open AnimusDb.Items List Option
open AnimusDb.Lsm (MemoryEngine MergeOp Key Version Record)
open AnimusDb.Lsm.MemoryEngine (Trace)
open scoped AnimusDb.Lsm
open ByteCodec (Bytes)
open RustText (Text)

namespace AnimusDb.Tablet

open Lsm.MemoryEngine

variable {event : LifeEvent} {Cond : Type} {host : Host Cond} {log : List (LogEntry Cond)}

/-- A replica over a log: the entries this incarnation has applied, and those whose merges are all durable. -/
structure Life where
  replica : Replica
  applied : Nat
  durable : Nat

inductive LifeEvent where
  | apply
  | flush
  | reclaim (floor : Version) (dropped : List (Key × Version))
  /-- A crash between two entries; the restart applies again from an entry whose predecessors are durable. -/
  | crash (resume : Nat)
  /-- A crash while the next entry is applied, after some of its storage calls. -/
  | crashInside (calls resume : Nat)

/-- A group started over an engine, at the log's first entry. -/
def Life.start (tablet : Nat) (m : MemoryEngine) : Life := ⟨.start tablet m, 0, 0⟩

def Life.step (host : Host Cond) (log : List (LogEntry Cond)) (l : Life) : LifeEvent → Option Life
  | .apply => do
    let entry ← log[l.applied]?
    let (r, _) ← applyEntry host l.replica entry
    some { l with replica := r, applied := l.applied + 1 }
  | .flush => some { l with replica := l.replica.flushPending, durable := max l.durable l.applied }
  | .reclaim floor dropped =>
    if l.replica.engine.Reclaimable floor dropped then
      some { l with replica := { l.replica with base := l.replica.engine.reclaim dropped, journal := [] } }
    else none
  | .crash resume =>
    if resume ≤ l.durable then
      some { l with replica := .start host.tablet l.replica.engine, applied := resume }
    else none
  | .crashInside calls resume =>
    if resume ≤ l.durable then do
      let entry ← log[l.applied]?
      let (r, _) ← applyEntry host l.replica entry
      let m := r.kept (l.replica.journal.length + calls)
      some { l with replica := .start host.tablet m, applied := resume }
    else none

def Life.run (host : Host Cond) (log : List (LogEntry Cond)) : Life → List LifeEvent → Option Life
  | l, [] => some l
  | l, event :: events => (l.step host log event).bind (run host log · events)

variable {P : Life → LifeEvent → Prop} {I : Life → Prop} {l l' : Life}
  {events : List LifeEvent}

/-- What an event does to a replica, where it can happen. -/
inductive Life.Step (host : Host Cond) (log : List (LogEntry Cond)) (l : Life) : LifeEvent → Life → Prop
  | apply {entry r out} (hentry : log[l.applied]? = some entry)
      (happly : applyEntry host l.replica entry = some (r, out)) :
      Step host log l .apply { l with replica := r, applied := l.applied + 1 }
  | flush : Step host log l .flush { l with replica := l.replica.flushPending, durable := max l.durable l.applied }
  | reclaim {floor dropped} (hdrop : l.replica.engine.Reclaimable floor dropped) :
      Step host log l (.reclaim floor dropped)
        { l with replica := { l.replica with base := l.replica.engine.reclaim dropped, journal := [] } }
  | crash {resume} (hresume : resume ≤ l.durable) :
      Step host log l (.crash resume) { l with replica := .start host.tablet l.replica.engine, applied := resume }
  | crashInside {calls resume entry r out} (hresume : resume ≤ l.durable)
      (hentry : log[l.applied]? = some entry) (happly : applyEntry host l.replica entry = some (r, out)) :
      Step host log l (.crashInside calls resume)
        { l with replica := .start host.tablet (r.kept (l.replica.journal.length + calls)), applied := resume }

theorem Life.step_cases (h : l.step host log event = some l') : Life.Step host log l event l' := by
  cases event with
  | apply =>
    obtain ⟨entry, hentry, h⟩ := bind_eq_some_iff.mp h
    obtain ⟨⟨r, out⟩, happly, h⟩ := bind_eq_some_iff.mp h
    cases h
    exact .apply hentry happly
  | flush =>
    cases h
    exact .flush
  | reclaim floor dropped =>
    rw [Life.step] at h
    split_ifs at h with hdrop
    cases h
    exact .reclaim hdrop
  | crash resume =>
    rw [Life.step] at h
    split_ifs at h with hresume
    cases h
    exact .crash hresume
  | crashInside calls resume =>
    rw [Life.step] at h
    split_ifs at h with hresume
    obtain ⟨entry, hentry, h⟩ := bind_eq_some_iff.mp h
    obtain ⟨⟨r, out⟩, happly, h⟩ := bind_eq_some_iff.mp h
    cases h
    exact .crashInside hresume hentry happly

/-- Every event of a run meets a condition at the state it meets. -/
def Life.Along (host : Host Cond) (log : List (LogEntry Cond)) (P : Life → LifeEvent → Prop) :
    Life → List LifeEvent → Prop
  | _, [] => True
  | l, event :: events => P l event ∧ ∀ l', l.step host log event = some l' → Along host log P l' events

theorem Life.Along.concat (h : l.Along host log P events)
    (hlast : ∀ l', l.run host log events = some l' → P l' event) :
    l.Along host log P (events ++ [event]) := by
  induction events generalizing l with
  | nil => exact ⟨hlast l rfl, fun _ _ => trivial⟩
  | cons first events ih =>
    refine ⟨h.1, fun l' hl' => ih (h.2 l' hl') fun last hrun => hlast last ?_⟩
    rw [Life.run, hl', bind_some, hrun]

theorem Life.run_preserves (h : l.run host log events = some l') (hP : l.Along host log P events)
    (hstep : ∀ l event l', I l → P l event → l.step host log event = some l' → I l') (hI : I l) : I l' := by
  induction events generalizing l with
  | nil =>
    cases h
    exact hI
  | cons event events ih =>
    obtain ⟨next, hnext, h⟩ := bind_eq_some_iff.mp h
    exact ih h (hP.2 next hnext) (hstep l event next hI hP.1 hnext)

variable {split : PendingSplit} {dropped : List (Key × Version)} {cmd : KvCommand Cond} {tablet : Nat}

variable {m cur : MemoryEngine} {op : MergeOp}

/-- The key carries a mark of the tablet that its flags are read from. -/
def MarksFork (tablet : Nat) (key : Bytes) : Prop :=
  markerKey "cp_seal" tablet <+: key ∨ key = splitMarkerKey tablet

theorem physical_not_marksFork {kind : UInt8} (hkind : allKinds.contains kind = true) (key : Bytes) :
    ¬ MarksFork tablet (physical kind key) := by
  obtain ⟨tail, htail⟩ : ∃ tail, escape reservedNamespace = 0x5F :: tail := ⟨_, rfl⟩
  have hlead : kind ≠ 0x5F := by
    rintro rfl
    exact absurd hkind (by decide)
  rintro (⟨rest, h⟩ | h)
  · rw [markerKey, htail] at h
    exact hlead (cons.inj h).1.symm
  · rw [splitMarkerKey, markerKey, htail] at h
    exact hlead (cons.inj h).1

theorem markerKey_leads_tag {tag tag' : String} {tablet' : Nat} {rest : Bytes}
    (h : markerKey tag tablet <+: markerKey tag' tablet' ++ rest) : utf8 tag.toList = utf8 tag'.toList := by
  rw [markerKey, markerKey, append_assoc, prefix_append_right_inj, append_assoc] at h
  exact escape_prefix_append.mp ((prefix_append _ _).trans h)

theorem ceilingMarkerKey_not_marksFork (tablet tablet' : Nat) :
    ¬ MarksFork tablet (ceilingMarkerKey tablet') := by
  rintro (h | h)
  · exact absurd (markerKey_leads_tag ((append_nil (ceilingMarkerKey tablet')).symm ▸ h)) (by decide)
  · have h : markerKey "cp_split" tablet <+: markerKey "cp_ceiling" tablet' ++ [] := by
      rw [append_nil, ← ceilingMarkerKey, h]
      exact prefix_refl _
    exact absurd (markerKey_leads_tag h) (by decide)

theorem Derived.not_marksFork {writes : List KindWrite} {version : Nat} (h : Derived writes version op) :
    ¬ MarksFork tablet op.key := by
  cases h with
  | row hw hkind => exact physical_not_marksFork hkind _
  | change => exact physical_not_marksFork rfl _

/-- Only a command that seals writes where the flags are read from. -/
theorem Writes.not_marksFork (h : Writes host m cmd cur op) (hcmd : seals cmd = false) :
    ¬ MarksFork tablet op.key := by
  cases h with
  | kindBatch _ hop => exact hop.not_marksFork
  | kindEval _ _ _ hop => exact hop.not_marksFork
  | kindEvalBatch _ _ _ _ hop => exact hop.not_marksFork
  | resolveDerived _ _ hop => exact hop.not_marksFork
  | seed _ hkind => exact physical_not_marksFork hkind _
  | freeze => cases hcmd
  | forkSeal => cases hcmd
  | fork => cases hcmd
  | ceiling => exact ceilingMarkerKey_not_marksFork _ _
  | _ => exact physical_not_marksFork rfl _

/-- The tablet carries neither a seal nor a fork. -/
def Unmarked (tablet : Nat) (m : MemoryEngine) : Prop := ∀ key, MarksFork tablet key → m.newest key = none

/-- The tablet carries the seal and the parameters of one fork. -/
structure Forked (tablet : Nat) (split : PendingSplit) (m : MemoryEngine) : Prop where
  sealed : ∃ version, m.newest (sealMarkerKey tablet .whole) = some (sealMarker tablet version split.ts)
  fork : ∃ version, m.newest (splitMarkerKey tablet) = some (splitMarker tablet version split)

theorem marksFork_seal (tablet : Nat) (range : KeyRange) : MarksFork tablet (sealMarkerKey tablet range) :=
  .inl (prefix_append _ _)

theorem sealMarkerKey_ne_splitMarkerKey (tablet : Nat) (range : KeyRange) :
    sealMarkerKey tablet range ≠ splitMarkerKey tablet := by
  intro h
  have h : markerKey "cp_split" tablet <+: markerKey "cp_seal" tablet ++ putKeyRange range := by
    rw [← sealMarkerKey, h]
    exact prefix_refl _
  exact absurd (markerKey_leads_tag h) (by decide)

theorem Unmarked.mergeSlot (h : Unmarked tablet m) (hop : ¬ MarksFork tablet op.key) :
    Unmarked tablet (m.mergeSlot op).2 := by
  intro key hkey
  rw [newest_mergeSlot_of_ne fun heq => hop (heq ▸ hkey)]
  exact h key hkey

theorem Forked.mergeSlot (h : Forked tablet split m) (hop : ¬ MarksFork tablet op.key) :
    Forked tablet split (m.mergeSlot op).2 := by
  constructor
  · rw [newest_mergeSlot_of_ne fun heq => hop (heq ▸ marksFork_seal tablet .whole)]
    exact h.sealed
  · rw [newest_mergeSlot_of_ne fun heq => hop (heq ▸ .inr rfl)]
    exact h.fork

theorem Unmarked.reclaim {floor : Version} (h : Unmarked tablet m)
    (hdrop : m.Reclaimable floor dropped) : Unmarked tablet (m.reclaim dropped) := by
  intro key hkey
  rcases newest_reclaim hdrop key with hsame | ⟨-, -, -, -, hnone⟩
  · exact hsame.trans (h key hkey)
  · exact hnone

theorem Forked.reclaim {floor : Version} (h : Forked tablet split m)
    (hdrop : m.Reclaimable floor dropped) : Forked tablet split (m.reclaim dropped) := by
  obtain ⟨⟨v, hseal⟩, w, hfork⟩ := h
  exact ⟨⟨v, newest_reclaim_of_value hdrop hseal rfl⟩, w, newest_reclaim_of_value hdrop hfork rfl⟩

theorem Unmarked.sealedFrom (h : Unmarked tablet m) : sealedFrom tablet m = [] := by
  refine filterMap_eq_nil_iff.mpr fun key hkey => ?_
  have hprefix := (mem_filter.mp hkey).2
  rw [MemoryEngine.read, h key (.inl (List.isPrefixOf_iff_prefix.mp hprefix))]
  rfl

/-- A seal of the whole range is read back from its mark. -/
theorem mem_sealedFrom {version : Nat} {ts : HlcTimestamp}
    (hnewest : m.newest (sealMarkerKey tablet .whole) = some (sealMarker tablet version ts)) (hts : ts.Fits) :
    (.whole, ts) ∈ sealedFrom tablet m := by
  obtain ⟨hmem, hkey, -⟩ := MemoryEngine.newest_eq_some hnewest
  refine mem_filterMap.mpr ⟨sealMarkerKey tablet .whole, mem_filter.mpr ⟨?_, ?_⟩, ?_⟩
  · exact Mvcc.Store.mem_keys.mpr ⟨_, hmem, hkey⟩
  · exact isPrefixOf_iff_prefix.mpr (prefix_append _ _)
  · have hwhole : KeyRange.whole.Fits := ⟨show 0 < 256 ^ 4 by decide, nofun⟩
    have hread : m.read (sealMarkerKey tablet .whole) = some ⟨version, encodeSealValue .whole ts⟩ := by
      rw [MemoryEngine.read, hnewest]
      rfl
    rw [hread, bind_some, decodeSealValue_encodeSealValue hwhole hts]

section Fork

variable {r r' : Replica}
  {out : ApplyOutcome}

variable {I : MemoryEngine → Prop}

variable {K : Bytes → Prop} (hI : ∀ m op, I m → ¬ K op.key → I (m.mergeSlot op).2)
  (hqueue : ∀ op ∈ r.pending, ¬ K op.key) (hengine : I r.engine)

include hI hqueue hengine

/-- What merges away from some keys keep, such a queue keeps. -/
theorem view_keeps : I r.view :=
  (Trace.of_forall (W := fun _ op => ¬ K op.key) r.engine fun op hop _ => hqueue op hop).preserves hI hengine

/-- What merges away from some keys keep, a command that makes no others keeps at each of its storage calls. -/
theorem Effect.keeps (h : Effect host cmd r r') (hK : ∀ cur op, Writes host r.view cmd cur op → ¬ K op.key) :
    I r'.engine ∧ (∀ op ∈ r'.pending, ¬ K op.key) ∧ ∀ n, r.journal.length ≤ n → I (r'.kept n) := by
  have hkept : ∀ n, r.journal.length ≤ n → I (r'.kept n) := by
    intro n hn
    rcases h.kept n hn with hsame | htrace
    · rwa [hsame]
    · exact htrace.preserves (fun m op hm hop => hI m op hm (hK m op hop)) (view_keeps hI hqueue hengine)
  refine ⟨?_, fun op hop => ?_, hkept⟩
  · have hlast := hkept _ h.calls.length_le
    rwa [Replica.kept_of_length_le le_rfl] at hlast
  · rcases h.queued op hop with hop | ⟨cur, hop⟩
    · exact hqueue op hop
    · exact hK cur op hop

omit hI hqueue hengine

/-- Nothing that the flags are read from is queued. -/
def QueuesRows (tablet : Nat) (r : Replica) : Prop := ∀ op ∈ r.pending, ¬ MarksFork tablet op.key

/-- Neither sealed nor forked, in memory and on disk. -/
structure Untouched (tablet : Nat) (r : Replica) : Prop where
  engine : Unmarked tablet r.engine
  queue : QueuesRows tablet r
  thawed : r.frozen = false
  unsealed : r.sealed = []

/-- Sealed by a fork whose parameters are durable. -/
structure SealedBy (tablet : Nat) (split : PendingSplit) (r : Replica) : Prop where
  engine : Forked tablet split r.engine
  queue : QueuesRows tablet r
  frozen : r.frozen = true
  sealed : (.whole, split.ts) ∈ r.sealed

theorem Unmarked.start (h : Unmarked tablet m) : Untouched tablet (.start tablet m) where
  engine := h
  queue := nofun
  thawed := by simp [Replica.start, h.sealedFrom]
  unsealed := h.sealedFrom

theorem Forked.start (h : Forked tablet split m) (hts : split.ts.Fits) :
    SealedBy tablet split (.start tablet m) := by
  obtain ⟨version, hnewest⟩ := h.sealed
  have hmem := mem_sealedFrom hnewest hts
  exact ⟨h, nofun, any_eq_true.mpr ⟨_, hmem, by simp [KeyRange.whole]⟩, hmem⟩

theorem Untouched.view (h : Untouched tablet r) : Unmarked tablet r.view :=
  view_keeps (fun _ _ hm hop => Unmarked.mergeSlot hm hop) h.queue h.engine

theorem SealedBy.view (h : SealedBy tablet split r) : Forked tablet split r.view :=
  view_keeps (fun _ _ hm hop => Forked.mergeSlot hm hop) h.queue h.engine

theorem Untouched.apply (h : Untouched tablet r) (heffect : Effect host cmd r r') (hcmd : seals cmd = false) :
    Untouched tablet r' ∧ ∀ n, r.journal.length ≤ n → Unmarked tablet (r'.kept n) := by
  obtain ⟨hengine, hqueue, hkept⟩ := heffect.keeps (fun _ _ hm hop => Unmarked.mergeSlot hm hop) h.queue
    h.engine fun _ _ hop => hop.not_marksFork hcmd
  obtain ⟨hsealed, hfrozen⟩ := heffect.flags hcmd
  exact ⟨⟨hengine, hqueue, hfrozen.trans h.thawed, hsealed.trans h.unsealed⟩, hkept⟩

theorem SealedBy.apply (h : SealedBy tablet split r) (heffect : Effect host cmd r r') (hcmd : seals cmd = false) :
    SealedBy tablet split r' ∧ ∀ n, r.journal.length ≤ n → Forked tablet split (r'.kept n) := by
  obtain ⟨hengine, hqueue, hkept⟩ := heffect.keeps (fun _ _ hm hop => Forked.mergeSlot hm hop) h.queue
    h.engine fun _ _ hop => hop.not_marksFork hcmd
  obtain ⟨hsealed, hfrozen⟩ := heffect.flags hcmd
  exact ⟨⟨hengine, hqueue, hfrozen.trans h.frozen, hsealed ▸ h.sealed⟩, hkept⟩

theorem Untouched.flush (h : Untouched tablet r) : Untouched tablet r.flushPending where
  engine := by simpa using h.view
  queue := by simp [QueuesRows]
  thawed := by simpa using h.thawed
  unsealed := by simpa using h.unsealed

variable {entry : LogEntry Cond}

theorem applyEntry_of_frozen (hfrozen : r.frozen = true) (hcmd : seals entry.command = true)
    (h : applyEntry host r entry = some (r', out)) : ∃ last, r' = { r with maxAppliedTs := last } := by
  obtain ⟨checked, hchecked, h⟩ := bind_eq_some_iff.mp h
  obtain ⟨last, rfl, -⟩ := assertTsMonotonic_eq hchecked
  refine ⟨last, ?_⟩
  obtain ⟨command, voters⟩ := entry
  cases command with
  | freeze ts =>
    have h := of_silent h
    rw [applyFreeze, if_pos hfrozen] at h
    exact (some.inj h).symm
  | splitTablet splitKey children ts =>
    have h := of_silent h
    rw [applySplitTablet, if_pos hfrozen] at h
    exact (some.inj h).symm
  | _ => cases hcmd

section Marked

variable (h : Untouched tablet r) (version : Nat) (ts : HlcTimestamp)

include h

/-- The mark's key is fresh, so its merge wins. -/
theorem Untouched.newest_marked : (r.flushPending.merge (sealMarker tablet version ts)).engine.newest
    (sealMarkerKey tablet .whole) = some (sealMarker tablet version ts) := by
  rw [Replica.engine_merge, Replica.engine_flushPending]
  have hwins : r.view.Wins (sealMarker tablet version ts) := by
    intro old hold
    cases (h.view _ (marksFork_seal tablet .whole)).symm.trans hold
  exact newest_mergeSlot_of_wins hwins

/-- Until the mark's own merge nothing of it is there. -/
theorem Untouched.kept_unmarked {n : Nat} (hn : r.journal.length ≤ n) (hle : n ≤ r.flushPending.journal.length) :
    Unmarked tablet ((r.flushPending.merge (sealMarker tablet version ts)).kept n) := by
  rw [Replica.kept_merge hle]
  rcases Replica.kept_flushPending hn with hkept | hkept <;> rw [hkept]
  · exact h.engine
  · exact h.view

end Marked

/-- The two merges of a fork. Only a crash right between them leaves one without the other. -/
theorem Untouched.fork {voters : List Text} (h : Untouched tablet r)
    (happly : applySplitTablet tablet r voters split.splitKey split.children split.ts = some r')
    (hvoters : split.bootstrapVoters = voters) :
    SealedBy tablet split r' ∧ ∀ n, r.journal.length ≤ n → n + 1 ≠ r'.journal.length →
      Unmarked tablet (r'.kept n) ∨ Forked tablet split (r'.kept n) := by
  subst hvoters
  rw [applySplitTablet, if_neg (by simp [h.thawed])] at happly
  obtain ⟨version, hversion, rfl⟩ := map_eq_some_iff.mp happly
  have hmarked := h.newest_marked version split.ts
  have hunmarked {n : Nat} := h.kept_unmarked version split.ts (n := n)
  have hlength : (r.flushPending.merge (sealMarker tablet version split.ts)).journal.length =
      r.flushPending.journal.length + 1 := by simp [Replica.merge, Replica.commit]
  have hfork : (r.flushPending.merge (sealMarker tablet version split.ts)).engine.Wins
    (splitMarker tablet version split) := by
    intro old hold
    rw [Replica.engine_merge, Replica.engine_flushPending,
      newest_mergeSlot_of_ne (sealMarkerKey_ne_splitMarkerKey tablet .whole)] at hold
    cases (h.view _ (.inr rfl)).symm.trans hold
  have hpending : (r.flushPending.merge (sealMarker tablet version split.ts)).pending = [] :=
    Replica.pending_flushPending
  generalize r.flushPending.merge (sealMarker tablet version split.ts) = sealed at *
  have hforked : Forked tablet split (sealed.engine.mergeSlot (splitMarker tablet version split)).2 := by
    refine ⟨⟨version, ?_⟩, version, newest_mergeSlot_of_wins hfork⟩
    rw [newest_mergeSlot_of_ne (sealMarkerKey_ne_splitMarkerKey tablet .whole).symm]
    exact hmarked
  have hengine : ((sealed.latch split.ts).merge (splitMarker tablet version split)).engine =
      (sealed.engine.mergeSlot (splitMarker tablet version split)).2 := Replica.engine_merge
  refine ⟨⟨hengine ▸ hforked, ?_, rfl, mem_append_right _ (mem_singleton_self _)⟩, fun n hn hbetween => ?_⟩
  · intro op hop
    cases (hpending ▸ hop : op ∈ ([] : List MergeOp))
  · simp only [Replica.merge, Replica.commit, Replica.latch, length_append, length_singleton] at hbetween
    rcases Nat.lt_or_ge r.flushPending.journal.length n with hlt | hle
    · right
      rw [Replica.kept_of_length_le, hengine]
      · exact hforked
      · simp only [Replica.merge, Replica.commit, Replica.latch, length_append, length_singleton]
        omega
    · left
      rw [Replica.kept_merge (show n ≤ (sealed.latch split.ts).journal.length from hlength ▸ Nat.le_succ_of_le hle)]
      exact hunmarked hn hle

theorem SealedBy.pendingSplit (h : SealedBy tablet split r) (hfits : split.Fits) :
    r.pendingSplit tablet = some split := by
  obtain ⟨version, hnewest⟩ := h.engine.fork
  have hread : r.engine.read (splitMarkerKey tablet) = some ⟨version, encodeSplitValue split⟩ := by
    rw [MemoryEngine.read, hnewest]
    rfl
  rw [Replica.pendingSplit, hread, bind_some, decodeSplitValue_encodeSplitValue hfits]

theorem Untouched.pendingSplit (h : Untouched tablet r) : r.pendingSplit tablet = none := by
  rw [Replica.pendingSplit, MemoryEngine.read, h.engine _ (.inr rfl)]
  rfl

/-- No crash falls between the two merges of a fork. -/
def BothMarkers (host : Host Cond) (log : List (LogEntry Cond)) (l : Life) : LifeEvent → Prop
  | .crashInside calls _ => ∀ entry r out, log[l.applied]? = some entry → seals entry.command = true →
      applyEntry host l.replica entry = some (r, out) → l.replica.journal.length + calls + 1 ≠ r.journal.length
  | _ => True

/-- Until a fork at some position of the log applies, nothing of it is there; from then on, all of it. -/
def ForkWhole (tablet : Nat) (split : PendingSplit) (position : Nat) (l : Life) : Prop :=
  (Untouched tablet l.replica ∧ l.applied ≤ position ∧ l.durable ≤ position) ∨ SealedBy tablet split l.replica

variable {position : Nat} {voters : List Text}

theorem ForkWhole.applyEntry {l : Life} (h : ForkWhole host.tablet split position l)
    (hfork : log[position]? = some ⟨.splitTablet split.splitKey split.children split.ts, split.bootstrapVoters⟩)
    (hfirst : ∀ entry ∈ log.take position, seals entry.command = false) (hentry : log[l.applied]? = some entry)
    (happly : applyEntry host l.replica entry = some (r', out)) :
    ForkWhole host.tablet split position { l with replica := r', applied := l.applied + 1 } ∧
      ∀ n, l.replica.journal.length ≤ n → (seals entry.command = true → n + 1 ≠ r'.journal.length) →
        Unmarked host.tablet (r'.kept n) ∧ l.durable ≤ position ∨ Forked host.tablet split (r'.kept n) := by
  rcases h with ⟨huntouched, happlied, hdurable⟩ | hsealed
  · rcases Nat.lt_or_eq_of_le happlied with hlt | heq
    · have hcmd : seals entry.command = false := by
        refine hfirst entry (mem_iff_getElem?.mpr ⟨l.applied, ?_⟩)
        rw [getElem?_take_of_lt hlt, hentry]
      obtain ⟨hnext, hkept⟩ := huntouched.apply (applyEntry_effect happly) hcmd
      exact ⟨.inl ⟨hnext, hlt, hdurable⟩, fun n hn _ => .inl ⟨hkept n hn, hdurable⟩⟩
    · rw [heq, hfork] at hentry
      cases hentry
      obtain ⟨checked, hchecked, happly⟩ := bind_eq_some_iff.mp happly
      obtain ⟨last, rfl, -⟩ := assertTsMonotonic_eq hchecked
      have huntouched : Untouched host.tablet { l.replica with maxAppliedTs := last } :=
        { huntouched with }
      obtain ⟨hnext, hkept⟩ := huntouched.fork (of_silent happly) rfl
      exact ⟨.inr hnext, fun n hn hbetween => (hkept n hn (hbetween rfl)).imp (⟨·, hdurable⟩) id⟩
  · cases hcmd : seals entry.command with
    | false =>
      obtain ⟨hnext, hkept⟩ := hsealed.apply (applyEntry_effect happly) hcmd
      exact ⟨.inr hnext, fun n hn _ => .inr (hkept n hn)⟩
    | true =>
      obtain ⟨last, rfl⟩ := applyEntry_of_frozen hsealed.frozen hcmd happly
      refine ⟨.inr { hsealed with }, fun n hn _ => .inr ?_⟩
      rw [Replica.kept_of_length_le (r := { l.replica with maxAppliedTs := last }) hn]
      exact hsealed.engine

theorem ForkWhole.step {l l' : Life} (h : ForkWhole host.tablet split position l)
    (hfork : log[position]? = some ⟨.splitTablet split.splitKey split.children split.ts, split.bootstrapVoters⟩)
    (hfirst : ∀ entry ∈ log.take position, seals entry.command = false) (hts : split.ts.Fits)
    (hevent : BothMarkers host log l event) (hstep : l.step host log event = some l') :
    ForkWhole host.tablet split position l' := by
  have hrestart {m : MemoryEngine} {resume : Nat} (hresume : resume ≤ l.durable)
      (hm : Unmarked host.tablet m ∧ l.durable ≤ position ∨ Forked host.tablet split m) :
      ForkWhole host.tablet split position { l with replica := .start host.tablet m, applied := resume } :=
    hm.imp (fun hm => ⟨hm.1.start, hresume.trans hm.2, hm.2⟩) (fun hm => hm.start hts)
  cases Life.step_cases hstep with
  | apply hentry happly => exact (h.applyEntry hfork hfirst hentry happly).1
  | flush =>
    rcases h with ⟨huntouched, happlied, hdurable⟩ | hsealed
    · exact .inl ⟨huntouched.flush, happlied, max_le hdurable happlied⟩
    · refine .inr ⟨?_, ?_, ?_, ?_⟩
      · simpa using hsealed.view
      · simp [QueuesRows]
      · simpa using hsealed.frozen
      · simpa using hsealed.sealed
  | reclaim hdrop =>
    rcases h with ⟨huntouched, hrest⟩ | hsealed
    · exact .inl ⟨{ huntouched with engine := huntouched.engine.reclaim hdrop }, hrest⟩
    · exact .inr { hsealed with engine := hsealed.engine.reclaim hdrop }
  | crash hresume => exact hrestart hresume (h.imp (fun h => ⟨h.1.engine, h.2.2⟩) (·.engine))
  | crashInside hresume hentry happly =>
    exact hrestart hresume ((h.applyEntry hfork hfirst hentry happly).2 _ (Nat.le_add_right _ _)
      fun hcmd => hevent _ _ _ hentry hcmd happly)

/-- A fork is atomic under crashes that do not fall between its two merges: in every state of every run over a
log in which the fork is the first entry to seal, the tablet is untouched and the fork is still to come, or it
is sealed and the fork's parameters can be read back. -/
theorem fork_atomic_under_crashes (host : Host Cond) (log : List (LogEntry Cond)) (position : Nat)
    (split : PendingSplit)
    (hfork : log[position]? = some ⟨.splitTablet split.splitKey split.children split.ts, split.bootstrapVoters⟩)
    (hfirst : ∀ entry ∈ log.take position, seals entry.command = false) (hfits : split.Fits)
    (m : MemoryEngine) (hstart : Unmarked host.tablet m) (events : List LifeEvent) (l : Life)
    (hevents : (Life.start host.tablet m).Along host log (BothMarkers host log) events)
    (hrun : (Life.start host.tablet m).run host log events = some l) :
    (l.replica.frozen = false ∧ l.replica.sealed = [] ∧ l.replica.pendingSplit host.tablet = none ∧
      l.applied ≤ position) ∨ (l.replica.frozen = true ∧ (.whole, split.ts) ∈ l.replica.sealed ∧
        l.replica.pendingSplit host.tablet = some split) := by
  have hwhole : ForkWhole host.tablet split position l :=
    Life.run_preserves hrun hevents (fun _ _ _ h hevent hstep => h.step hfork hfirst hfits.ts hevent hstep)
      (.inl ⟨hstart.start, Nat.zero_le _, Nat.zero_le _⟩)
  rcases hwhole with ⟨huntouched, happlied, -⟩ | hsealed
  · exact .inl ⟨huntouched.thawed, huntouched.unsealed, huntouched.pendingSplit, happlied⟩
  · exact .inr ⟨hsealed.frozen, hsealed.sealed, hsealed.pendingSplit hfits⟩

/-- A fork of tablet 1 into two children. -/
def sampleSplit : PendingSplit := ⟨[0x61], (⟨2, [['n']]⟩, ⟨3, [['n']]⟩), [['n']], ⟨5, 0⟩⟩

def sampleSplitLog : List (LogEntry Unit) :=
  [⟨.splitTablet sampleSplit.splitKey sampleSplit.children sampleSplit.ts, sampleSplit.bootstrapVoters⟩]

theorem sampleSplit_fits : sampleSplit.Fits := by
  have hone : 1 < 256 ^ 4 := by decide
  have hnode : NodeListFits [['n']] := ⟨hone, fun s hs => mem_singleton.mp hs ▸ hone⟩
  exact ⟨hone, ⟨by decide, hnode⟩, ⟨by decide, hnode⟩, hnode, by decide, by decide, by decide⟩

/-- A crash before the first merge of the fork, then the fork, a crash after it, and the replay. -/
def sampleForkEvents : List LifeEvent := [.crashInside 0 0, .apply, .flush, .crash 0, .apply]

theorem sampleForkEvents_bothMarkers : (Life.start 1 .empty).Along plainHost sampleSplitLog
    (BothMarkers plainHost sampleSplitLog) sampleForkEvents := by
  refine ⟨?_, fun _ _ => ⟨trivial, fun _ _ =>
    ⟨trivial, fun _ _ => ⟨trivial, fun _ _ => ⟨trivial, fun _ _ => trivial⟩⟩⟩⟩⟩
  intro entry r out hentry _ happly hcalls
  have hlength : (sampleSplitLog[0]?.bind (applyEntry plainHost freshReplica)).map (·.1.journal.length) =
    some 2 := by
    decide +kernel
  have happly : sampleSplitLog[0]?.bind (applyEntry plainHost freshReplica) = some (r, out) := by
    rw [show sampleSplitLog[0]? = some entry from hentry]
    exact happly
  rw [happly] at hlength
  exact absurd (hcalls.trans (some.inj hlength)) (by decide)

theorem fork_atomic_under_crashes_replayed :
    ∃ l, (Life.start 1 .empty).run plainHost sampleSplitLog sampleForkEvents = some l ∧
      ((l.replica.frozen = false ∧ l.replica.sealed = [] ∧ l.replica.pendingSplit 1 = none ∧ l.applied ≤ 0) ∨
        (l.replica.frozen = true ∧ (.whole, sampleSplit.ts) ∈ l.replica.sealed ∧
          l.replica.pendingSplit 1 = some sampleSplit)) := by
  have hrun : ((Life.start 1 .empty).run plainHost sampleSplitLog sampleForkEvents).isSome := by decide +kernel
  obtain ⟨l, hl⟩ := isSome_iff_exists.mp hrun
  exact ⟨l, hl, fork_atomic_under_crashes plainHost sampleSplitLog 0 sampleSplit rfl nofun sampleSplit_fits
    .empty (fun _ _ => rfl) sampleForkEvents l sampleForkEvents_bothMarkers hl⟩

/-- A crash after the seal and before the fork's own marker: the replay finds the tablet sealed and skips the
fork, whose parameters are never written. -/
theorem fork_lost_between_markers :
    ((Life.start 1 .empty).run plainHost sampleSplitLog [.crashInside 1 0, .apply]).map
      (fun l => (l.applied, l.replica.frozen, l.replica.sealed, l.replica.pendingSplit 1)) =
        some (1, true, [(.whole, sampleSplit.ts)], none) := by
  decide +kernel

end Fork

end AnimusDb.Tablet
