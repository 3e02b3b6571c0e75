import AnimusDb.LsmRefine

/-! The tree-structured engine and the in-memory one run side by side. As long as a range delete meets only
keys that were live before its call, or that the call has already deleted, every call returns the same on
both and every query above the reclaimed history answers the same. -/

open OrderedList (Ordered)
open Mvcc (Agrees Functional)
open List

namespace AnimusDb.Lsm

open Lsm.MemoryEngine

variable {version : Version} {st : List (Key × Version) × List MergeRec} {key : Key} {data : Store}

/-- The two engines hold the same history from `horizon` on. -/
structure Matches (horizon : Version) (inner : Inner) (m : MemoryEngine) : Prop where
  ok : inner.Ok
  agrees : Agrees horizon inner.held m.data.held
  latest : inner.manifest.maxVersion = m.maxVersion
  bounded : ∀ r ∈ m.data.held, r.version ≤ m.maxVersion
  reach : horizon ≤ m.maxVersion + 1

theorem matches_empty : Matches 0 .empty .empty :=
  ⟨Inner.ok_empty, by simpa [Inner.held, Inner.empty, empty] using Agrees.refl ∅ 0, rfl,
    by simp [empty], Nat.zero_le _⟩

variable {fmt : TableFormat} {horizon : Version} {inner : Inner} {m m' : MemoryEngine} {call : WriteCall}
  {record : WalRecord}

section

variable (h : Matches horizon inner m)

include h

theorem Matches.top : m.maxVersion ≤ versionMax := h.latest ▸ h.ok.top

theorem Matches.withinTop : Bounded m.data.held :=
  fun r hr => (h.bounded r hr).trans h.top

theorem Matches.observes : Observes fmt horizon inner m :=
  observes_of_agrees h.agrees h.withinTop h.latest (h.reach.trans (Nat.succ_le_succ h.top))

/-- Pinned versions hold no records. -/
theorem Matches.pinned (versions : List Version) :
    Matches horizon { inner with heldSnapshots := versions } m :=
  { h with ok := { h.ok with } }

/-- A logged record applied on both sides. -/
theorem Matches.apply (htop : inner.OnTop record.slots) (hrecent : ∀ r ∈ record.slots, horizon ≤ r.version)
    (hdata : m'.data.held = Mvcc.writes record.slots m.data.held)
    (hmax : m'.maxVersion = max m.maxVersion (recordMaxVersion record))
    (hraises : call.raises = false → m.maxVersion ≤ recordMaxVersion record)
    (hfits : recordMaxVersion record ≤ versionMax) : Matches horizon (call.apply record inner) m' := by
  refine ⟨h.ok.apply htop (h.latest ▸ hraises) hfits, ?_, ?_, ?_, ?_⟩
  · rw [WriteCall.held_apply htop, hdata]
    exact h.agrees.writes hrecent
  · rw [hmax, ← h.latest]
    unfold WriteCall.apply Inner.setMaxVersion
    dsimp only
    split_ifs with hcall
    · rfl
    · rw [h.latest, max_eq_right (hraises (by simpa using hcall))]
  · intro r hr
    rw [hdata] at hr
    rw [hmax]
    rcases Mvcc.mem_of_mem_writes hr with hr | hr
    · exact (h.bounded r hr).trans (le_max_left _ _)
    · exact (version_le_recordMaxVersion hr).trans (le_max_right _ _)
  · rw [hmax]
    exact h.reach.trans (Nat.succ_le_succ (le_max_left _ _))

end

/-- A call at one version above everything written so far. -/
theorem Matches.monotonic (h : Matches horizon inner m) (hsingle : record.single = true)
    (hnew : m.maxVersion < recordMaxVersion record) (hfits : recordMaxVersion record ≤ versionMax)
    (hdata : m'.data.held = Mvcc.writes record.slots m.data.held)
      (hmax : m'.maxVersion = recordMaxVersion record) : Matches horizon (call.apply record inner) m' := by
  refine h.apply (h.ok.onTop hsingle (h.latest ▸ hnew)) (fun r hr => ?_) hdata
    (hmax.trans (max_eq_right hnew.le).symm) (fun _ => hnew.le) hfits
  rw [slots_version hsingle hr]
  exact h.reach.trans hnew

theorem Matches.checkMonotonic_eq (h : Matches horizon inner m) (version : Version) :
    inner.checkMonotonic version = m.checkMonotonic version := by
  unfold Inner.checkMonotonic checkMonotonic
  rw [h.latest]
  by_cases hle : version ≤ m.maxVersion
  · rw [if_pos hle, if_neg (Nat.not_lt.mpr hle)]
  · rw [if_neg hle, if_pos (Nat.not_le.mp hle)]

theorem Matches.lt_of_checkMonotonic (h : Matches horizon inner m) {u : Unit}
    (hmono : m.checkMonotonic version = .ok u) :
    m.maxVersion < version := h.latest ▸ Inner.lt_of_checkMonotonic ((h.checkMonotonic_eq version).trans hmono)

/-- The keys a range delete meets were live before the call or have been deleted in it. -/
def MemoryEngine.rangeFits (m : MemoryEngine) (version : Version) (data : Store) : WriteOp → Prop
  | .deleteRange start stop => ∀ key ∈ data.keys, InRange start (some stop) key →
      (m.readAt key version).isSome ∨ ⟨key, version, none⟩ ∈ data.records
  | _ => True

/-- The same of every range delete of a batch, each at its turn. -/
def MemoryEngine.rangesFit (m : MemoryEngine) (version : Version) (data : Store) : List WriteOp → Prop
  | [] => True
  | op :: ops => m.rangeFits version data op ∧
      m.rangesFit version (MemoryEngine.applyOp version data op) ops

instance (m : MemoryEngine) (version : Version) (data : Store) : ∀ op, Decidable (m.rangeFits version data op)
  | .put .. | .delete _ => inferInstanceAs (Decidable True)
  | .deleteRange .. => inferInstanceAs (Decidable (∀ _ ∈ _, _ → _))

instance MemoryEngine.decidableRangesFit (m : MemoryEngine) (version : Version) :
    ∀ ops data, Decidable (m.rangesFit version data ops)
  | [], _ => inferInstanceAs (Decidable True)
  | op :: ops, data =>
    have := m.decidableRangesFit version ops (MemoryEngine.applyOp version data op)
    inferInstanceAs (Decidable (_ ∧ _))

theorem Matches.mem_liveKeysInRange (h : Matches horizon inner m) (hnew : m.maxVersion < version)
    {start stop : Key} : key ∈ inner.liveKeysInRange fmt start stop version ↔
      key ∈ m.data.keys ∧ InRange start (some stop) key ∧ (m.readAt key version).isSome := by
  have hv : horizon ≤ version + 1 := h.reach.trans (Nat.succ_le_succ hnew.le)
  have hkeys : inner.liveKeysInRange fmt start stop version =
      ((inner.mergedAt fmt start (some stop) version).filterMap liveRow).map Prod.fst := by
    unfold Inner.liveKeysInRange
    rw [map_filterMap]
    refine filterMap_congr fun r _ => ?_
    cases hvalue : r.value <;> simp [liveRow, live, hvalue]
  rw [hkeys, rowsAt_of_agrees h.agrees start (some stop) hv]
  simp only [rowsAt, keysInRange, mem_map, mem_filterMap, mem_filter,
    decide_eq_true_eq, Option.map_eq_some_iff, Option.isSome_iff_exists]
  constructor
  · rintro ⟨⟨k, v⟩, ⟨k', ⟨hk, hrange⟩, v', hread, heq⟩, rfl⟩
    cases heq
    exact ⟨hk, hrange, v, hread⟩
  · rintro ⟨hk, hrange, v, hread⟩
    exact ⟨(key, v), ⟨key, ⟨hk, hrange⟩, v, hread, rfl⟩, rfl⟩

theorem MemoryEngine.mem_keys_of_readAt (m : MemoryEngine) (hread : (m.readAt key version).isSome) :
    key ∈ m.data.keys := by
  unfold readAt at hread
  have hans := m.data.answers_newestAt key version
  cases hnew : m.data.newestAt key version with
  | none => simp [hnew] at hread
  | some r =>
    rw [hnew] at hans
    exact Mvcc.Store.mem_keys.mpr ⟨r, hans.mem, hans.key_eq⟩

theorem MemoryEngine.foldl_putSlot (version : Version) (keys : List Key) (data : Store) :
    (keys.foldl (putSlot version none) data).held = Mvcc.writes (tombstones version keys) data.held := by
  rw [← Mvcc.Store.held_foldl_writes, tombstones, foldl_map]
  rfl

/-- One op of a batch writes the same on both sides; `data` is what the in-memory engine has at its turn. -/
theorem Matches.applyOp (h : Matches horizon inner m) (hnew : m.maxVersion < version)
    (hkeys : ∀ key ∈ m.data.keys, key ∈ data.keys) {op : WriteOp} (hfit : m.rangeFits version data op) :
    (applyOp version data op).held =
      Mvcc.writes ((inner.expandOp fmt version op).slots version) data.held := by
  cases op with
  | put key value | delete key => exact Mvcc.Store.held_insert _
  | deleteRange start stop =>
    refine (foldl_putSlot version _ data).trans ?_
    refine Mvcc.writes_tombstones_congr data.functional_held ?_ ?_
    · intro key hkey
      obtain ⟨hk, hrange, -⟩ := (h.mem_liveKeysInRange hnew).mp hkey
      exact mem_filter.mpr ⟨hkeys _ hk, decide_eq_true hrange⟩
    · -- a key only the in-memory engine covers has its tombstone already
      intro key hkey
      obtain ⟨hk, hrange⟩ := mem_filter.mp hkey
      have hrange := of_decide_eq_true hrange
      refine (hfit key hk hrange).imp_left fun hread => ?_
      exact (h.mem_liveKeysInRange hnew).mpr ⟨m.mem_keys_of_readAt hread, hrange, hread⟩

theorem MemoryEngine.mem_keys_applyOp (op : WriteOp) (hkey : key ∈ data.keys) :
    key ∈ (applyOp version data op).keys := by
  have hput : ∀ value k (data : Store), key ∈ data.keys → key ∈ (putSlot version value data k).keys := by
    intro value k data hkey
    obtain ⟨r, hr, rfl⟩ := Mvcc.Store.mem_keys.mp hkey
    rw [Mvcc.Store.mem_keys]
    have hheld := data.held_insert ⟨k, version, value⟩
    by_cases hslot : r.key = k ∧ r.version = version
    · refine ⟨⟨k, version, value⟩, ?_, hslot.1.symm⟩
      exact hheld.ge (.inl rfl)
    · exact ⟨r, hheld.ge (.inr ⟨hr, hslot⟩), rfl⟩
  cases op with
  | put k value => exact hput _ _ _ hkey
  | delete k => exact hput _ _ _ hkey
  | deleteRange start stop =>
    refine foldlRecOn (motive := fun data : Store => key ∈ data.keys) _ _ hkey ?_
    exact fun data hkey k _ => hput none k data hkey

theorem Matches.applyOps (h : Matches horizon inner m) (hnew : m.maxVersion < version)
    (hkeys : ∀ key ∈ m.data.keys, key ∈ data.keys) {ops : List WriteOp}
    (hfit : m.rangesFit version data ops) : (ops.foldl (MemoryEngine.applyOp version) data).held =
      Mvcc.writes ((ops.map (inner.expandOp fmt version)).flatMap (BatchOp.slots version)) data.held := by
  induction ops generalizing data with
  | nil => rfl
  | cons op ops ih =>
    rw [foldl_cons, map_cons, flatMap_cons, Mvcc.writes_append, ← h.applyOp hnew hkeys hfit.1]
    exact ih (fun key hkey => MemoryEngine.mem_keys_applyOp op (hkeys key hkey)) hfit.2

theorem Matches.latestVersionOf_any_eq (h : Matches horizon inner m) (hrecent : horizon ≤ version) :
    (inner.latestVersionOf fmt key).any (fun cur => version ≤ cur) = (m.latestVersionOf key).any fun cur =>
    version ≤ cur := by
  have hbound := h.withinTop
  rw [Bool.eq_iff_iff, inner.latestVersionOf_any fmt (fun r hr => hbound r (h.agrees.sub hr)),
    latestVersionOf_any hbound, h.agrees.holds_iff hrecent]

theorem Matches.mergeSlot (h : Matches horizon inner m) (op : MergeOp) (hslots : record.slots = [op])
    (hversion : recordMaxVersion record = op.version) (hraises : call.raises = true)
    (hrecent : horizon ≤ op.version) (hfits : op.version ≤ versionMax)
    (hwins : (inner.latestVersionOf fmt op.key).any (fun cur => op.version ≤ cur) = false) :
      Matches horizon (call.apply record inner)
      ⟨putSlot op.version op.value m.data op.key, max m.maxVersion op.version⟩ := by
  refine h.apply ?_ ?_ ?_ (by rw [hversion]) (fun hcall => ?_) (hversion ▸ hfits)
  · rw [hslots]
    exact forall_mem_singleton.mpr (h.ok.newest hwins)
  · rw [hslots]
    exact forall_mem_singleton.mpr hrecent
  · rw [hslots]
    exact Mvcc.Store.held_insert _
  · rw [hraises] at hcall
    cases hcall

/-- How far a merge batch has come on the two sides: `st` is what the planner of the tree-structured engine
has, `m'` the in-memory engine, which applies each op at once. -/
structure MergeRun (horizon : Version) (m : MemoryEngine) (st : List (Key × Version) × List MergeRec)
    (m' : MemoryEngine) : Prop where
  ordered : Ordered Prod.fst st.1
  data : m'.data.held = Mvcc.writes (st.2.map MergeRec.toRecord) m.data.held
  latest : m'.maxVersion = max m.maxVersion ((st.2.map (·.version)).foldl max 0)
  seen : ∀ key version, (∃ r ∈ m'.data.held, r.key = key ∧ version ≤ r.version) ↔
    (∃ r ∈ m.data.held, r.key = key ∧ version ≤ r.version) ∨ ∃ v, (key, v) ∈ st.1 ∧ version ≤ v
  recent : ∀ rec ∈ st.2, horizon ≤ rec.version
  fits : ∀ rec ∈ st.2, rec.version ≤ versionMax

theorem MergeRun.start (horizon : Version) (m : MemoryEngine) : MergeRun horizon m ([], []) m :=
  ⟨.nil, rfl, (max_eq_left (Nat.zero_le _)).symm, by simp, by simp, by simp⟩

theorem MergeRun.bounded (h : MergeRun horizon m st m') (hbound : Bounded m.data.held) :
    Bounded m'.data.held := by
  intro r hr
  rw [h.data] at hr
  rcases Mvcc.mem_of_mem_writes hr with hr | hr
  · exact hbound r hr
  · obtain ⟨rec, hrec, rfl⟩ := mem_map.mp hr
    exact h.fits rec hrec

theorem Inner.considerMerge_cases (fmt : TableFormat) (inner : Inner) (hordered : Ordered Prod.fst st.1)
    (op : MergeOp) : (((inner.latestVersionOf fmt op.key).any (fun cur => op.version ≤ cur) = true ∨
        ∃ v, (op.key, v) ∈ st.1 ∧ op.version ≤ v) ∧ inner.considerMerge fmt st op = st) ∨
    (¬ ((inner.latestVersionOf fmt op.key).any (fun cur => op.version ≤ cur) = true ∨
      ∃ v, (op.key, v) ∈ st.1 ∧ op.version ≤ v) ∧
      inner.considerMerge fmt st op = (OrderedList.insert Prod.fst (op.key, op.version) st.1,
        st.2 ++ [⟨op.key, op.value, op.version⟩])) := by
  have hprior : (∃ v, (op.key, v) ∈ st.1 ∧ op.version ≤ v) ↔
      ∃ v, (OrderedList.lookup Prod.fst op.key st.1).map Prod.snd = some v ∧ op.version ≤ v := by
    constructor
    · rintro ⟨v, hv, hle⟩
      refine ⟨v, ?_, hle⟩
      rw [(OrderedList.lookup_eq_some hordered).mpr ⟨hv, rfl⟩]
      rfl
    · rintro ⟨v, hv, hle⟩
      obtain ⟨⟨k, v'⟩, hfound, rfl⟩ := Option.map_eq_some_iff.mp hv
      obtain ⟨hmem, rfl⟩ := (OrderedList.lookup_eq_some hordered).mp hfound
      exact ⟨v', hmem, hle⟩
  rw [hprior]
  unfold Inner.considerMerge
  generalize inner.latestVersionOf fmt op.key = current
  generalize (OrderedList.lookup Prod.fst op.key st.1).map Prod.snd = prior
  dsimp only
  split_ifs with hlose
  · refine .inl ⟨?_, rfl⟩
    cases current <;> cases prior <;> simp_all
  · refine .inr ⟨?_, rfl⟩
    cases current <;> cases prior <;> simp_all

/-- The batch so far after one more winner. -/
theorem reaches_insert {prior : List (Key × Version)} (hordered : Ordered Prod.fst prior) {op : MergeOp}
    (hnewest : ∀ v, (op.key, v) ∈ prior → v < op.version) :
    (∃ v, (key, v) ∈ OrderedList.insert Prod.fst (op.key, op.version) prior ∧ version ≤ v) ↔
      (key = op.key ∧ version ≤ op.version) ∨ ∃ v, (key, v) ∈ prior ∧ version ≤ v := by
  simp only [OrderedList.mem_insert hordered, Prod.mk.injEq]
  constructor
  · rintro ⟨v, ⟨rfl, rfl⟩ | ⟨hv, -⟩, hle⟩
    · exact .inl ⟨rfl, hle⟩
    · exact .inr ⟨v, hv, hle⟩
  · rintro (⟨rfl, hle⟩ | ⟨v, hv, hle⟩)
    · exact ⟨_, .inl ⟨rfl, rfl⟩, hle⟩
    · by_cases hkey : key = op.key
      · subst hkey
        exact ⟨_, .inl ⟨rfl, rfl⟩, hle.trans (hnewest v hv).le⟩
      · exact ⟨v, .inr ⟨hv, hkey⟩, hle⟩

theorem MergeRun.step (h : Matches horizon inner m)
    (hrun : MergeRun horizon m st m') {op : MergeOp} (hrecent : horizon ≤ op.version)
    (hfits : op.version ≤ versionMax) :
      MergeRun horizon m (inner.considerMerge fmt st op) (m'.mergeSlot op).2 := by
  have hbound := hrun.bounded h.withinTop
  have hsame : ((inner.latestVersionOf fmt op.key).any (fun cur => op.version ≤ cur) = true ∨
      ∃ v, (op.key, v) ∈ st.1 ∧ op.version ≤ v) ↔
      (m'.latestVersionOf op.key).any (fun cur => op.version ≤ cur) = true := by
    rw [h.latestVersionOf_any_eq hrecent, latestVersionOf_any h.withinTop, latestVersionOf_any hbound, hrun.seen]
  rw [mergeSlot]
  rcases inner.considerMerge_cases fmt hrun.ordered op with ⟨hlose, heq⟩ | ⟨hwin, heq⟩
  · rw [heq, if_pos (hsame.mp hlose)]
    exact hrun
  rw [heq, if_neg (mt hsame.mpr hwin)]
  -- the op is newer than all the engines and the batch so far have of its key
  have hnone := mt ((latestVersionOf_any hbound).mpr.comp (hrun.seen _ _).mpr) (mt hsame.mpr hwin)
  rw [not_or] at hnone
  have hprior : ∀ v, (op.key, v) ∈ st.1 → v < op.version := fun v hv =>
    Nat.not_le.mp fun hle => hnone.2 ⟨v, hv, hle⟩
  have hheld : (putSlot op.version op.value m'.data op.key).held = Mvcc.write op m'.data.held :=
    Mvcc.Store.held_insert _
  have hnew' : ∀ r ∈ m'.data.held, r.key = op.key → r.version < op.version := fun r hr hkey =>
    Nat.not_le.mp fun hle => not_or.mpr hnone ((hrun.seen _ _).mp ⟨r, hr, hkey, hle⟩)
  have hlast : ∀ {P : MergeRec → Prop}, (∀ rec ∈ st.2, P rec) → P ⟨op.key, op.value, op.version⟩ →
      ∀ rec ∈ st.2 ++ [⟨op.key, op.value, op.version⟩], P rec := fun hP hop =>
    forall_mem_append.mpr ⟨hP, forall_mem_singleton.mpr hop⟩
  refine ⟨hrun.ordered.insert _, ?_, ?_, ?_, hlast hrun.recent hrecent, hlast hrun.fits hfits⟩
  · rw [map_append, Mvcc.writes_append, ← hrun.data]
    exact hheld
  · rw [map_append, foldl_append, hrun.latest, max_assoc]
    rfl
  · intro key version
    rw [hheld, Mvcc.reaches_write hnew', hrun.seen, reaches_insert hrun.ordered hprior, or_left_comm]

theorem Matches.mergeRun (h : Matches horizon inner m) {ops : List MergeOp}
    (hops : ∀ op ∈ ops, horizon ≤ op.version ∧ op.version ≤ versionMax) (hrun : MergeRun horizon m st m') :
    MergeRun horizon m (ops.foldl (inner.considerMerge fmt) st)
      (ops.foldl (fun m op => (m.mergeSlot op).2) m') := by
  induction ops generalizing st m' with
  | nil => exact hrun
  | cons op ops ih =>
    obtain ⟨hrecent, hfits⟩ := hops op mem_cons_self
    exact ih (fun op hop => hops op (mem_cons_of_mem _ hop)) (hrun.step h hrecent hfits)

theorem Matches.mergeBatch (h : Matches horizon inner m) {ops : List MergeOp}
    (hops : ∀ op ∈ ops, horizon ≤ op.version ∧ op.version ≤ versionMax) :
    (inner.write fmt (.mergeBatch ops)).1 = (m.write (.mergeBatch ops)).1 ∧
      Matches horizon (inner.write fmt (.mergeBatch ops)).2 (m.write (.mergeBatch ops)).2 := by
  have hrun : MergeRun horizon m (_, inner.mergeWinners fmt ops) _ :=
    h.mergeRun hops (MergeRun.start horizon m)
  cases hwinners : inner.mergeWinners fmt ops with
  | nil =>
    rw [hwinners] at hrun
    have hdata := hrun.data
    have hsame := hrun.latest.trans (max_eq_left (Nat.zero_le _))
    simp only [Inner.write, WriteCall.plan, hwinners, write]
    exact ⟨rfl, h.ok, hdata ▸ h.agrees, h.latest.trans hsame.symm, hdata ▸ hsame ▸ h.bounded, hsame ▸ h.reach⟩
  | cons first rest =>
    rw [hwinners] at hrun
    simp only [Inner.write, WriteCall.plan, hwinners, write]
    refine ⟨rfl, h.apply ?_ ?_ hrun.data hrun.latest (fun hcall => by cases hcall) ?_⟩
    · intro r hr
      obtain ⟨rec, hrec, rfl⟩ := mem_map.mp hr
      exact h.ok.newest (Inner.mem_mergeWinners (hwinners ▸ hrec)).2
    · intro r hr
      obtain ⟨rec, hrec, rfl⟩ := mem_map.mp hr
      exact hrun.recent rec hrec
    · refine OrderedList.foldl_max_le (fun v hv => ?_) (Nat.zero_le _)
      obtain ⟨rec, hrec, rfl⟩ := mem_map.mp hv
      exact hrun.fits rec hrec

/-- What the two engines need of a call to agree on it: versions are 64-bit numbers, merges are not below the
reclaimed history, range deletes meet keys that are live or deleted in the call, and a batch is not
wrong in two ways at once. -/
def WriteCall.Fits (horizon : Version) (m : MemoryEngine) : WriteCall → Prop
  | .put _ _ version | .delete _ version => version ≤ versionMax
  | .merge _ _ version | .mergeTombstone _ version => horizon ≤ version ∧ version ≤ versionMax
  | .mergeBatch ops => ∀ op ∈ ops, horizon ≤ op.version ∧ op.version ≤ versionMax
  | .deleteRange start stop version => version ≤ versionMax ∧
      (m.maxVersion < version → m.rangesFit version m.data [.deleteRange start stop])
  | .writeBatch version ops => version ≤ versionMax ∧
      (m.maxVersion < version → m.rangesFit version m.data ops) ∧
      (version ≤ m.maxVersion → ops.any WriteOp.inverted = false)

instance (horizon : Version) (m : MemoryEngine) : ∀ call : WriteCall, Decidable (call.Fits horizon m)
  | .put .. | .delete .. => inferInstanceAs (Decidable (_ ≤ _))
  | .merge .. | .mergeTombstone .. => inferInstanceAs (Decidable (_ ∧ _))
  | .mergeBatch _ => inferInstanceAs (Decidable (∀ _ ∈ _, _ ∧ _))
  | .deleteRange .. => inferInstanceAs (Decidable (_ ∧ (_ → _)))
  | .writeBatch .. => inferInstanceAs (Decidable (_ ∧ (_ → _) ∧ (_ → _)))

theorem Matches.write (h : Matches horizon inner m) {call : WriteCall} (hfits : call.Fits horizon m) :
    (inner.write fmt call).1 = (m.write call).1 ∧
    Matches horizon (inner.write fmt call).2 (m.write call).2 := by
  have hcheck := h.checkMonotonic_eq
  cases call with
  | put key _ version | delete key version =>
    simp only [Inner.write, WriteCall.plan, MemoryEngine.write, hcheck]
    cases hmono : m.checkMonotonic version with
    | error e => exact ⟨rfl, h⟩
    | ok _ =>
      refine ⟨rfl, h.monotonic rfl (h.lt_of_checkMonotonic hmono) hfits ?_ rfl⟩
      exact Mvcc.Store.held_insert _
  | deleteRange start stop version =>
    simp only [Inner.write, WriteCall.plan, MemoryEngine.write, hcheck]
    split_ifs with hrange
    · exact ⟨rfl, h⟩
    · cases hmono : m.checkMonotonic version with
      | error e => exact ⟨rfl, h⟩
      | ok _ =>
        have hnew := h.lt_of_checkMonotonic hmono
        refine ⟨rfl, h.monotonic rfl hnew hfits.1 ?_ rfl⟩
        exact h.applyOp hnew (fun _ => id) (hfits.2 hnew).1
  | writeBatch version ops =>
    simp only [Inner.write, WriteCall.plan, MemoryEngine.write, hcheck]
    cases hmono : m.checkMonotonic version with
    | error e =>
      have hle : version ≤ m.maxVersion := by
        by_contra hlt
        rw [checkMonotonic, if_pos (Nat.not_le.mp hlt)] at hmono
        cases hmono
      rw [hfits.2.2 hle]
      exact ⟨rfl, h⟩
    | ok _ =>
      split_ifs with hrange
      · exact ⟨rfl, h⟩
      · have hnew := h.lt_of_checkMonotonic hmono
        refine ⟨rfl, h.monotonic rfl hnew hfits.1 ?_ rfl⟩
        exact h.applyOps hnew (fun _ => id) (hfits.2.1 hnew)
  | merge key _ version | mergeTombstone key version =>
    simp only [Inner.write, WriteCall.plan, MemoryEngine.write, MemoryEngine.mergeSlot,
      h.latestVersionOf_any_eq hfits.1]
    split_ifs with hlose
    · exact ⟨rfl, h⟩
    · have hwins : (inner.latestVersionOf fmt key).any (fun cur => version ≤ cur) = false :=
        (h.latestVersionOf_any_eq hfits.1).trans (Bool.not_eq_true _ ▸ hlose)
      exact ⟨rfl, h.mergeSlot ⟨key, version, _⟩ rfl rfl rfl hfits.1 hfits.2 hwins⟩
  | mergeBatch ops =>
    exact h.mergeBatch hfits

/-- What may happen between two queries: a write on both engines; a flush, a compaction or a change of the
pinned versions on the tree-structured one. -/
inductive PairedStep where
  | write (call : WriteCall)
  | flush (minBytes : Nat) (surviving : List Nat)
  | compact (plan : CompactionPlan)
  | hold (version : Version)
  | release (version : Version)

/-- Both engines with what their calls returned; history below `horizon` may have been reclaimed. -/
structure Paired where
  lsm : Inner
  memory : MemoryEngine
  horizon : Version
  lsmReplies : List (Except CallError Reply)
  memoryReplies : List (Except CallError Reply)

variable (fmt) (opts : LsmOptions)

def Paired.start : Paired := ⟨.empty, .empty, 0, [], []⟩

def Paired.step (s : Paired) : PairedStep → Paired
  | .write call =>
    { s with
      lsm := (s.lsm.write fmt call).2, memory := (s.memory.write call).2
      lsmReplies := s.lsmReplies ++ [(s.lsm.write fmt call).1]
      memoryReplies := s.memoryReplies ++ [(s.memory.write call).1] }
  | .flush minBytes surviving => { s with lsm := s.lsm.flushIfOver minBytes surviving }
  | .compact plan =>
    { s with
      lsm := s.lsm.runCompaction fmt opts plan, horizon := s.lsm.compactionHorizon fmt opts plan s.horizon }
  | .hold version => { s with lsm := s.lsm.holdSnapshot version }
  | .release version => { s with lsm := s.lsm.releaseSnapshot version }

def Paired.run (s : Paired) (steps : List PairedStep) : Paired := steps.foldl (Paired.step fmt opts) s

/-- Every call of the run fits the engines at its turn. -/
def Paired.Fits (s : Paired) : List PairedStep → Prop
  | [] => True
  | .write call :: steps => call.Fits s.horizon s.memory ∧ (s.step fmt opts (.write call)).Fits steps
  | step :: steps => (s.step fmt opts step).Fits steps

instance Paired.decidableFits : ∀ (steps : List PairedStep) (s : Paired), Decidable (s.Fits fmt opts steps)
  | [], _ => inferInstanceAs (Decidable True)
  | .write call :: steps, s =>
    have := decidableFits steps (s.step fmt opts (.write call))
    inferInstanceAs (Decidable (_ ∧ _))
  | .flush minBytes surviving :: steps, s => decidableFits steps (s.step fmt opts (.flush minBytes surviving))
  | .compact plan :: steps, s => decidableFits steps (s.step fmt opts (.compact plan))
  | .hold version :: steps, s => decidableFits steps (s.step fmt opts (.hold version))
  | .release version :: steps, s => decidableFits steps (s.step fmt opts (.release version))

structure Paired.InStep (s : Paired) : Prop where
  engines : Matches s.horizon s.lsm s.memory
  replies : s.lsmReplies = s.memoryReplies

variable {fmt opts} {s : Paired}

theorem Paired.InStep.step_write (h : s.InStep) {call : WriteCall} (hfits : call.Fits s.horizon s.memory) :
    (s.step fmt opts (.write call)).InStep := by
  have ⟨hreply, hengines⟩ : _ ∧ Matches s.horizon (s.lsm.write fmt call).2 _ := h.engines.write hfits
  exact ⟨hengines, by simp only [Paired.step, h.replies, hreply]⟩

theorem Paired.InStep.step_flush (h : s.InStep) (minBytes : Nat) (surviving : List Nat) :
    (s.step fmt opts (.flush minBytes surviving)).InStep := by
  have hok := h.engines.ok
  refine ⟨⟨hok.flushIfOver minBytes surviving, ?_, ?_, h.engines.bounded, h.engines.reach⟩, h.replies⟩
  · exact (hok.held_flushIfOver minBytes surviving).symm ▸ h.engines.agrees
  · refine Eq.trans ?_ h.engines.latest
    rcases Inner.flushIfOver_eq hok minBytes surviving with heq | ⟨-, -, -, hmax, -⟩
    · exact congrArg (·.manifest.maxVersion) heq
    · exact hmax

theorem Paired.InStep.step_compact (h : s.InStep) (plan : CompactionPlan) :
    (s.step fmt opts (.compact plan)).InStep := by
  have hok := h.engines.ok
  refine ⟨⟨hok.runCompaction, hok.agrees_runCompaction h.engines.agrees, ?_, h.engines.bounded, ?_⟩, h.replies⟩
  · exact (Inner.runCompaction_rest fmt opts plan s.lsm).2.1.trans h.engines.latest
  · have hfloor := Inner.compactionFloor_le opts s.lsm
    rw [h.engines.latest] at hfloor
    have hreach := h.engines.reach
    simp only [Paired.step, Inner.compactionHorizon]
    split_ifs
    · exact hreach
    · exact max_le hreach (Nat.succ_le_succ hfloor)

theorem Paired.InStep.run {steps : List PairedStep} (h : s.InStep) (hfits : s.Fits fmt opts steps) :
    (s.run fmt opts steps).InStep := by
  induction steps generalizing s with
  | nil => exact h
  | cons step steps ih =>
    cases step with
    | write call => exact ih (h.step_write hfits.1) hfits.2
    | flush minBytes surviving => exact ih (h.step_flush minBytes surviving) hfits
    | compact plan => exact ih (h.step_compact plan) hfits
    | hold version => exact ih ⟨h.engines.pinned _, h.replies⟩ hfits
    | release version => exact ih ⟨h.engines.pinned _, h.replies⟩ hfits

/-- In every run whose calls all fit, the two engines return the same and show the same. -/
theorem lsm_observes_memory (fmt : TableFormat) (opts : LsmOptions) (steps : List PairedStep)
    (hfits : Paired.start.Fits fmt opts steps) :
    let s := Paired.start.run fmt opts steps
    s.lsmReplies = s.memoryReplies ∧ Observes fmt s.horizon s.lsm s.memory := by
  have h := Paired.InStep.run ⟨matches_empty, rfl⟩ hfits
  exact ⟨h.replies, h.engines.observes⟩

/-- A filter of 64 bits and 3 probes, and a file size that counts records. -/
def smallFormat : TableFormat := ⟨fun _ => (64, 3), List.length⟩

def smallOptions : LsmOptions := ⟨2, 64, 1⟩

/-- Two flushed tables with a range delete in the second, compacted, then a batch and merges. -/
def deletedAndCompacted : List PairedStep :=
  [.write (.put [1] [10] 1), .write (.put [2] [20] 2), .flush 0 [], .write (.deleteRange [1] [2] 3),
    .write (.put [3] [30] 4), .write (.put [3] [31] 4), .flush 0 [], .compact ⟨0, false⟩,
    .write (.writeBatch 6 [.put [1] [11], .deleteRange [2] [3]]),
    .write (.mergeBatch [⟨[4], 5, some [40]⟩, ⟨[4], 5, none⟩, ⟨[1], 5, none⟩])]

/-- Where a run from the start leads. -/
def Paired.after (steps : List PairedStep) : Paired := Paired.start.run smallFormat smallOptions steps

theorem lsm_observes_memory_compacted : Paired.start.Fits smallFormat smallOptions deletedAndCompacted ∧
      (Paired.after deletedAndCompacted).lsm.manifest.tables.length = 1 ∧
      (Paired.after deletedAndCompacted).lsm.entries smallFormat =
        [([1], ⟨6, [11]⟩), ([3], ⟨4, [30]⟩), ([4], ⟨5, [40]⟩)] ∧
      (Paired.after deletedAndCompacted).lsmReplies = (Paired.after deletedAndCompacted).memoryReplies ∧
      Observes smallFormat (Paired.after deletedAndCompacted).horizon (Paired.after deletedAndCompacted).lsm
        (Paired.after deletedAndCompacted).memory :=
  ⟨by decide +kernel, by decide +kernel, by decide +kernel,
    lsm_observes_memory smallFormat smallOptions deletedAndCompacted (by decide +kernel)⟩

/-- A batch that puts a key and then deletes a range over it. -/
def putThenRangeDelete : List PairedStep := [.write (.writeBatch 1 [.put [1] [10], .deleteRange [1] [2]])]

/-- A range delete over a dead key, and a merge at its version. -/
def rangeDeleteTwice : List PairedStep :=
  [.write (.put [1] [10] 1), .write (.delete [1] 2), .write (.deleteRange [1] [2] 3),
    .write (.merge [1] [11] 3)]

/-- A batch with a stale version and an inverted range. -/
def staleAndInverted : List PairedStep := [.write (.writeBatch 0 [.deleteRange [2] [1]])]

/-- The three ways the engines part: the batch leaves its key live, the second range delete leaves no
tombstone for the merge to lose against, and the doubly wrong batch is refused for another reason. -/
theorem lsm_departs_from_memory :
    ((Paired.after putThenRangeDelete).lsm.get smallFormat [1] = some ⟨1, [10]⟩ ∧
      (Paired.after putThenRangeDelete).memory.get [1] = none) ∧
    ((Paired.after rangeDeleteTwice).lsm.get smallFormat [1] = some ⟨3, [11]⟩ ∧
      (Paired.after rangeDeleteTwice).memory.get [1] = none) ∧
    (Paired.after staleAndInverted).lsmReplies ≠ (Paired.after staleAndInverted).memoryReplies := by
  decide +kernel

/-- In every run, the tables stay layered under a memtable that is newer than they are. -/
theorem tables_stay_layered (fmt : TableFormat) (opts : LsmOptions) (steps : List PairedStep)
    (hwords : ∀ call, .write call ∈ steps → call.InWords) : (Paired.start.run fmt opts steps).lsm.Ok := by
  refine foldlRecOn (motive := fun s : Paired => s.lsm.Ok) steps _ Inner.ok_empty fun s hok step hstep => ?_
  cases step with
  | write call => exact hok.write (hwords call hstep)
  | flush minBytes surviving => exact hok.flushIfOver minBytes surviving
  | compact plan => exact hok.runCompaction
  | hold version | release version => exact { hok with }

theorem tables_stay_layered_compacted : (Paired.after deletedAndCompacted).lsm.Ok := by
  refine tables_stay_layered smallFormat smallOptions deletedAndCompacted fun call hcall => ?_
  simp only [deletedAndCompacted, mem_cons, not_mem_nil, or_false, PairedStep.write.injEq, reduceCtorEq,
    false_or] at hcall
  rcases hcall with rfl | rfl | rfl | rfl | rfl | rfl | rfl <;> simp [WriteCall.InWords, versionMax]

end AnimusDb.Lsm
