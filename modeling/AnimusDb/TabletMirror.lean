import AnimusDb.TabletEffects

/-! Two replicas whose engines tell the same. An arm looks at live rows, and at versions only to ask whether
its own entry is already past; replicas that agree on both decide alike and merge alike. -/

open AnimusDb.Items List
open AnimusDb.Lsm (MemoryEngine MergeOp Key Version)
open ByteCodec (Bytes)
open RustText (Text)

namespace AnimusDb.Lsm.MemoryEngine

variable {K L : Key → Prop} {bound : Version} {m m' m'' : MemoryEngine} {op : MergeOp} {ops : List MergeOp}
  {key : Key}

/-- The key is absent or holds a tombstone below a version. -/
def DeadBelow (bound : Version) (m : MemoryEngine) (key : Key) : Prop :=
  ∀ r, m.newest key = some r → r.value = none ∧ r.version < bound

theorem DeadBelow.read (h : DeadBelow bound m key) : m.read key = none := by
  cases hnewest : m.newest key with
  | none => rw [MemoryEngine.read, hnewest, Option.bind_none]
  | some r => rw [MemoryEngine.read, hnewest, Option.bind_some, live, (h r hnewest).1, Option.map_none]

theorem DeadBelow.not_reaches (h : DeadBelow bound m key) {version : Version} (hversion : bound ≤ version) :
    ¬ m.Reaches key version := by
  rintro ⟨r, hr, hle⟩
  exact (h r hr).2.not_ge (hversion.trans hle)

theorem DeadBelow.raise (h : DeadBelow bound m key) {bound' : Version} (hle : bound ≤ bound') :
    DeadBelow bound' m key :=
  fun r hr => ⟨(h r hr).1, (h r hr).2.trans_le hle⟩

/-- Two engines tell the same from a version up: on a set of keys they have the same newest records, or
tombstones below that version, of which a compaction may have taken one. -/
def Similar (K : Key → Prop) (bound : Version) (m m' : MemoryEngine) : Prop :=
  ∀ key, K key → m'.newest key = m.newest key ∨ DeadBelow bound m key ∧ DeadBelow bound m' key

namespace Similar

theorem refl (m : MemoryEngine) : Similar K bound m m := fun _ _ => .inl rfl

section

variable (h : Similar K bound m m')

include h

theorem read (hkey : K key) : m'.read key = m.read key := by
  rcases h key hkey with heq | ⟨hdead, hdead'⟩
  · rw [MemoryEngine.read, heq, MemoryEngine.read]
  · rw [hdead.read, hdead'.read]

theorem reaches (hkey : K key) {version : Version} (hversion : bound ≤ version) :
    m'.Reaches key version ↔ m.Reaches key version := by
  rcases h key hkey with heq | ⟨hdead, hdead'⟩
  · rw [Reaches, heq, Reaches]
  · exact iff_of_false (hdead'.not_reaches hversion) (hdead.not_reaches hversion)

theorem trans (h' : Similar K bound m' m'') : Similar K bound m m'' := by
  intro key hkey
  rcases h key hkey with heq | ⟨hdead, hdead'⟩
  · simpa only [DeadBelow, heq] using h' key hkey
  · rcases h' key hkey with heq' | ⟨-, hdead''⟩
    · exact .inr ⟨hdead, by simpa only [DeadBelow, heq'] using hdead'⟩
    · exact .inr ⟨hdead, hdead''⟩

theorem raise {bound' : Version} (hle : bound ≤ bound') : Similar K bound' m m' :=
  fun key hkey => (h key hkey).imp id fun hdead => ⟨hdead.1.raise hle, hdead.2.raise hle⟩

theorem mergeSlot (hop : bound ≤ op.version) : Similar K bound (m.mergeSlot op).2 (m'.mergeSlot op).2 := by
  intro key hkey
  by_cases heq : op.key = key
  · subst heq
    left
    rcases h op.key hkey with hsame | ⟨hdead, hdead'⟩
    · exact newest_mergeSlot_congr hsame
    · have hwins : m.Wins op := fun r hr => (hdead r hr).2.trans_le hop
      have hwins' : m'.Wins op := fun r hr => (hdead' r hr).2.trans_le hop
      rw [newest_mergeSlot_of_wins hwins, newest_mergeSlot_of_wins hwins']
  · simp only [DeadBelow, newest_mergeSlot_of_ne heq]
    exact h key hkey

theorem mergeAll (hops : ∀ op ∈ ops, bound ≤ op.version) :
    Similar K bound (m.mergeAll ops) (m'.mergeAll ops) := by
  induction ops generalizing m m' with
  | nil => exact h
  | cons op ops ih =>
    exact ih (h.mergeSlot (hops op mem_cons_self)) fun op' hop' => hops op' (mem_cons_of_mem _ hop')

/-- Whether some recorded version of a key is above one from the bound up. -/
theorem ahead (hkey : K key) {version : Version} (hversion : bound ≤ version) :
    ((m'.latestVersionOf key).any fun v => decide (version < v)) = (m.latestVersionOf key).any fun v =>
    decide (version < v) := by
  have hreaches := h.reaches hkey (Nat.le_succ_of_le hversion)
  rw [latestVersionOf_eq, latestVersionOf_eq, Option.any_map, Option.any_map, Bool.eq_iff_iff,
    Option.any_eq_true, Option.any_eq_true]
  simpa [Reaches, Nat.succ_le_iff] using hreaches

end

end Similar

end AnimusDb.Lsm.MemoryEngine

namespace AnimusDb.Tablet

open AnimusDb.Lsm.MemoryEngine (Similar)

variable {Cond : Type} {bound version : Nat} {key : Bytes} {K : Key → Prop} {m m' : MemoryEngine}

theorem keyReachedByEntry_iff : keyReachedByEntry m key version = true ↔ m.Reaches key version := by
  rw [keyReachedByEntry, MemoryEngine.latestVersionOf_eq, MemoryEngine.read, MemoryEngine.Reaches]
  cases m.newest key with
  | none => simp
  | some r => cases hvalue : r.value <;> simp [Lsm.live, hvalue]

theorem foldlM_congr {α β : Type} {l : List α} {f g : β → α → Option β} (h : ∀ a ∈ l, ∀ b, f b a = g b a)
    (b : β) : l.foldlM f b = l.foldlM g b := by
  induction l generalizing b with
  | nil => rfl
  | cons a l ih =>
    rw [foldlM_cons, foldlM_cons, h a mem_cons_self]
    exact bind_congr fun b' => ih (fun b hb => h b (mem_cons_of_mem _ hb)) b'

variable {s : TxnStage Cond}

section Reads

variable (hK : ∀ key, K (physical kindBase key)) (h : Similar K bound m m')

include hK h

theorem readEnvelope_similar (key : Bytes) :
    readEnvelope m' (physical kindBase key) = readEnvelope m (physical kindBase key) := by
  rw [readEnvelope, h.read (hK key), readEnvelope]

theorem readRecordAt_similar (key : Bytes) :
    readRecordAt m' (physical kindBase key) = readRecordAt m (physical kindBase key) := by
  rw [readRecordAt, h.read (hK key), readRecordAt]

theorem keyReachedByEntry_similar (hversion : bound ≤ version) (key : Bytes) :
    keyReachedByEntry m' (physical kindBase key) version =
    keyReachedByEntry m (physical kindBase key) version := by
  rw [Bool.eq_iff_iff, keyReachedByEntry_iff, keyReachedByEntry_iff]
  exact h.reaches (hK key) hversion

theorem engineAhead_similar (hversion : bound ≤ version) :
    engineAhead s m' version = engineAhead s m version := by
  simp only [engineAhead, h.ahead (hK _) hversion]

theorem alreadyDecided_similar : alreadyDecided s m' = alreadyDecided s m := by
  rw [alreadyDecided, readRecordAt_similar hK h, alreadyDecided]

theorem blockedBy_similar : blockedBy s m' = blockedBy s m := by
  simp only [blockedBy, readEnvelope_similar hK h]

theorem resurrectionAttempt_similar : resurrectionAttempt s m' = resurrectionAttempt s m := by
  simp only [resurrectionAttempt, h.read (hK _)]

theorem conditionFailure_similar : conditionFailure s m' = conditionFailure s m := by
  simp only [conditionFailure, readEnvelope_similar hK h]

theorem evaluateWrites_similar (items : ItemLayer Cond) (ws : List (TxnWrite Cond)) :
    evaluateWrites items s m' ws = evaluateWrites items s m ws := by
  induction ws with
  | nil => rfl
  | cons w ws ih =>
    rw [evaluateWrites, evaluateWrites, evaluateWrite, evaluateWrite, readEnvelope_similar hK h, ih]

/-- No intent at the key was written without the value it shadows. -/
def CarriesPrior (m : MemoryEngine) (key : Bytes) : Prop := ∀ i, HoldsIntent m key i → i.prior ≠ .unknown

theorem stageIntentPrior_similar {txnId : TxnId} (hprior : CarriesPrior m (physical kindBase key))
    (hown : ∀ i, HoldsIntent m (physical kindBase key) i → i.txnId = txnId) :
    stageIntentPrior m' (physical kindBase key) txnId = stageIntentPrior m (physical kindBase key) txnId := by
  rw [stageIntentPrior, stageIntentPrior, h.read (hK key)]
  cases hread : m.read (physical kindBase key) with
  | none => rfl
  | some vv =>
    dsimp only
    cases hdecode : decodeEnvelope vv.value with
    | none => rfl
    | some envelope =>
      cases envelope with
      | committed value => rfl
      | intent i =>
        have hholds : HoldsIntent m (physical kindBase key) i := by
          rw [HoldsIntent, readEnvelope, hread]
          simp [hdecode]
        cases hknown : i.prior with
        | unknown => exact absurd hknown (hprior i hholds)
        | known prior => simp [hown i hholds, hknown]

theorem ownIntent_similar (txnId : TxnId) : ownIntent m' txnId = ownIntent m txnId := by
  funext key
  rw [ownIntent, h.read (hK key), ownIntent]

theorem evalBatchItem_similar (items : ItemLayer Cond) (version : Nat) :
    evalBatchItem items m' version = evalBatchItem items m version := by
  funext st e
  rw [evalBatchItem, evalBatchItem, batchImage, batchImage, readEnvelope_similar hK h]

end Reads

variable {p : Bytes × Option (Intent × Nat)} {acc : List MergeOp × Nat} {i : Intent} {txnId : TxnId}

theorem resolveKey_congr {outcome : TxnOutcome} (h : ∀ found ∈ p.2, found.1.prior ≠ .unknown) :
    resolveKey m' txnId outcome version acc p = resolveKey m txnId outcome version acc p := by
  obtain ⟨key, found⟩ := p
  cases found with
  | none => rfl
  | some found =>
    rw [resolveKey, resolveKey]
    dsimp only
    unfold restoredValue
    cases hprior : found.1.prior with
    | unknown => exact absurd hprior (h found rfl)
    | known prior => rfl

variable {α β γ δ : Type} {R : α → β → Prop} {S : γ → δ → Prop}

/-- The second computation succeeds wherever the first does, with a related result. -/
def Mirrors (R : α → β → Prop) (x : Option α) (y : Option β) :
    Prop := ∀ a, x = some a → ∃ b, y = some b ∧ R a b

variable {x : Option α} {y : Option β} {f : α → Option γ}

namespace Mirrors

theorem some {a : α} {b : β} (h : R a b) : Mirrors R (.some a) (.some b) := by
  intro a' ha
  cases ha
  exact ⟨b, rfl, h⟩

theorem bind {g : β → Option δ} (h : Mirrors R x y)
    (hnext : ∀ a b, x = .some a → R a b → Mirrors S (f a) (g b)) : Mirrors S (x.bind f) (y.bind g) := by
  intro c hc
  obtain ⟨a, ha, hc⟩ := Option.bind_eq_some_iff.mp hc
  obtain ⟨b, hb, hR⟩ := h a ha
  obtain ⟨d, hd, hS⟩ := hnext a b ha hR c hc
  exact ⟨d, Option.bind_eq_some_iff.mpr ⟨b, hb, hd⟩, hS⟩

/-- Both go on from one and the same computation. -/
theorem bindSame {g : α → Option δ} (hnext : ∀ a, x = .some a → Mirrors S (f a) (g a)) :
    Mirrors S (x.bind f) (x.bind g) :=
  bind (R := Eq) (fun a ha => ⟨a, ha, rfl⟩) fun a _ ha hab => hab ▸ hnext a ha

theorem map {f : α → γ} {g : β → δ} (h : Mirrors R x y) (hS : ∀ a b, R a b → S (f a) (g b)) :
    Mirrors S (x.map f) (y.map g) := by
  intro c hc
  obtain ⟨a, ha, rfl⟩ := Option.map_eq_some_iff.mp hc
  obtain ⟨b, hb, hR⟩ := h a ha
  exact ⟨g b, by rw [hb, Option.map_some], hS a b hR⟩

theorem mono {R' : α → β → Prop} (h : Mirrors R x y) (hR : ∀ a b, R a b → R' a b) :
    Mirrors R' x y := fun a ha => (h a ha).imp fun b hb => ⟨hb.1, hR a b hb.2⟩

theorem mapSame {f : α → γ} {g : α → δ} (hS : ∀ a, x = .some a → S (f a) (g a)) :
    Mirrors S (x.map f) (x.map g) := by
  intro c hc
  obtain ⟨a, ha, rfl⟩ := Option.map_eq_some_iff.mp hc
  exact ⟨g a, by rw [ha, Option.map_some], hS a ha⟩

theorem foldlM {l : List γ} {f : α → γ → Option α} {g : β → γ → Option β} {a : α} {b : β}
    (hstep : ∀ c ∈ l, ∀ a b, R a b → Mirrors R (f a c) (g b c)) (h : R a b) :
    Mirrors R (l.foldlM f a) (l.foldlM g b) := by
  induction l generalizing a b with
  | nil => exact .some h
  | cons c l ih =>
    rw [foldlM_cons, foldlM_cons]
    exact bind (hstep c mem_cons_self a b h) fun a' b' _ hab =>
      ih (fun c hc => hstep c (mem_cons_of_mem _ hc)) hab

end Mirrors

variable {r r' : Replica} {op : MergeOp} {ops : List MergeOp}

/-- Two replicas that readers cannot tell apart: similar engines behind their queues, and the same flags. The
second has seen no later entry. -/
structure Abreast (K : Key → Prop) (bound : Nat) (r r' : Replica) : Prop where
  view : Similar K bound r.view r'.view
  sealed : r'.sealed = r.sealed
  frozen : r'.frozen = r.frozen
  ceiling : r'.committedCeiling = r.committedCeiling
  clock : ∀ last', r'.maxAppliedTs = some last' → ∃ last, r.maxAppliedTs = some last ∧ last' ≤ last

/-- Abreast, with the same queue. -/
structure Alike (K : Key → Prop) (bound : Nat) (r r' : Replica) : Prop extends Abreast K bound r r' where
  engine : Similar K bound r.engine r'.engine
  pending : r'.pending = r.pending

theorem Abreast.push (h : Abreast K bound r r') (hops : ∀ op ∈ ops, bound ≤ op.version) :
    Abreast K bound (r.push ops) (r'.push ops) := by
  refine { h with view := ?_ }
  rw [Replica.view_push, Replica.view_push]
  exact h.view.mergeAll hops

theorem Abreast.flush (h : Abreast K bound r r') : Alike K bound r.flushPending r'.flushPending where
  view := by
    rw [Replica.view_flushPending, Replica.view_flushPending]
    exact h.view
  sealed := by simp [h.sealed]
  frozen := by simp [h.frozen]
  ceiling := by simp [h.ceiling]
  clock := by simpa using h.clock
  engine := by
    rw [Replica.engine_flushPending, Replica.engine_flushPending]
    exact h.view
  pending := by rw [Replica.pending_flushPending, Replica.pending_flushPending]

namespace Alike

theorem push (h : Alike K bound r r') (hops : ∀ op ∈ ops, bound ≤ op.version) :
    Alike K bound (r.push ops) (r'.push ops) :=
  ⟨h.toAbreast.push hops, h.engine, congrArg (· ++ ops) h.pending⟩

theorem merge (h : Alike K bound r r') (hempty : r.pending = []) (hop : bound ≤ op.version) :
    Alike K bound (r.merge op) (r'.merge op) := by
  refine { h with view := ?_, engine := ?_ }
  · rw [Replica.view_merge, Replica.view_merge, h.pending, hempty]
    exact h.engine.mergeSlot hop
  · rw [Replica.engine_merge, Replica.engine_merge]
    exact h.engine.mergeSlot hop

theorem latch (h : Alike K bound r r') (ts : HlcTimestamp) : Alike K bound (r.latch ts) (r'.latch ts) :=
  { h with sealed := congrArg (· ++ [(KeyRange.whole, ts)]) h.sealed, frozen := rfl }

end Alike

variable {recordKey : Bytes} {entries : List (TxnId × Bytes)}

variable {ts : HlcTimestamp}

/-- Abreast, with the same report. -/
def AbreastReporting {ρ : Type} (K : Key → Prop) (bound : Nat) (p p' : Replica × ρ) :
    Prop := Abreast K bound p.1 p'.1 ∧ p'.2 = p.2

/-- An entry's version is from the bound up. -/
def From (bound : Nat) (ts : HlcTimestamp) : Prop := ∀ version, pack ts = some version → bound ≤ version

theorem bound_le_derived {writes : List KindWrite} {changeLog : List (Bytes × Bytes)} {version ordinal : Nat}
    (h : bound ≤ version) : ∀ op ∈ (materializeDerived writes changeLog version ordinal).1, bound ≤ op.version :=
  fun _ hop => (derived_of_mem hop).version_eq ▸ h

variable {host : Host Cond} {outcome : TxnOutcome}

variable {items : ItemLayer Cond} {e : KindEvalEntry Cond}

/-- The stage's rows have one write each, and the intents there carry what they shadow. -/
structure StageMeets (s : TxnStage Cond) (m : MemoryEngine) : Prop where
  distinct : (s.writes.map fun w => w.key).Nodup
  prior : ∀ w ∈ s.writes, CarriesPrior m (physical kindBase w.key)

theorem own_of_unblocked (h : blockedBy s m = some none) {w : TxnWrite Cond} (hw : w ∈ s.writes)
    (hi : HoldsIntent m (physical kindBase w.key) i) : i.txnId = s.txnId := by
  have hfree := findSomeM_none h w hw
  rw [hi] at hfree
  by_contra hne
  simp [hne] at hfree

theorem holdsIntent_of_ownIntent {intentVersion : Nat}
    (h : ownIntent m txnId key = some (some (i, intentVersion))) :
    HoldsIntent m (physical kindBase key) i := by
  rw [ownIntent] at h
  rw [HoldsIntent, readEnvelope]
  split at h
  · cases h
  · rename_i vv hread
    obtain ⟨envelope, hdecode, hfound⟩ := Option.map_eq_some_iff.mp h
    cases envelope with
    | committed value => cases hfound
    | intent i' =>
      dsimp only at hfound
      split_ifs at hfound
      cases hfound
      simp [hdecode]

/-- Every intent that the command meets carries what it shadows. -/
structure Plain (m : MemoryEngine) (cmd : KvCommand Cond) : Prop where
  stage : ∀ s ts, cmd = .txnStage s ts → StageMeets s m
  resolve : ∀ txnId recordKey keys outcome ts, cmd = .txnResolve txnId recordKey keys outcome ts →
    ∀ key ∈ keys, CarriesPrior m (physical kindBase key)

/-- A command that merges from a version up. Seeded rows keep the versions they had. -/
structure Above (bound : Nat) (cmd : KvCommand Cond) : Prop where
  version : ∀ ts, commandTs cmd = some ts → From bound ts
  seeded : ∀ rows ts, cmd = .seedBatch rows ts → ∀ row ∈ rows, bound ≤ row.version

/-- What two replicas that are abreast apply alike: a plain entry from the bound up. -/
structure Mirrorable (bound : Nat) (m : MemoryEngine) (cmd : KvCommand Cond) :
    Prop extends Plain m cmd, Above bound cmd

variable {cmd : KvCommand Cond}

/-- Every merge of an entry carries the entry's version, but for seeded rows. -/
theorem version_of_writes {cur : MemoryEngine} {op : MergeOp} (h : Writes host m cmd cur op)
    (hseedless : ∀ rows ts, cmd ≠ .seedBatch rows ts) :
    ∃ ts version, commandTs cmd = some ts ∧ pack ts = some version ∧ op.version = version := by
  cases h with
  | seed => exact absurd rfl (hseedless _ _)
  | decision hcmd hversion | orphan hcmd hversion =>
    exact ⟨_, _, by cases cmd <;> cases hcmd <;> rfl, hversion, rfl⟩
  | kindBatch hversion hop | kindEval hversion _ _ hop | kindEvalBatch hversion _ _ _ hop
  | resolveDerived hversion _ hop => exact ⟨_, _, rfl, hversion, hop.version_eq⟩
  | put hversion | batch hversion | delete hversion | cas hversion | freeze hversion | forkSeal hversion
  | fork hversion | ceiling hversion | stageIntent hversion | stageMarker hversion | stageRecord hversion
  | resolveRow hversion | resolveMarker hversion | settle hversion | reap hversion =>
    exact ⟨_, _, rfl, hversion, rfl⟩

theorem Above.version_le {cur : MemoryEngine} {op : MergeOp} (h : Above bound cmd)
    (hwrite : Writes host m cmd cur op) : bound ≤ op.version := by
  by_cases hseed : ∃ rows ts, cmd = .seedBatch rows ts
  · obtain ⟨rows, ts, rfl⟩ := hseed
    cases hwrite with
    | seed hmem => exact h.seeded rows ts rfl _ hmem
    | decision hcmd | orphan hcmd => cases hcmd
  · obtain ⟨ts, version, hts, hversion, heq⟩ := version_of_writes hwrite fun rows ts heq => hseed ⟨rows, ts, heq⟩
    rw [heq]
    exact h.version ts hts version hversion

namespace Abreast

theorem merged (h : Abreast K bound r r') {op : MergeOp} (hop : bound ≤ op.version) :
    Alike K bound (r.flushPending.merge op) (r'.flushPending.merge op) :=
    h.flush.merge Replica.pending_flushPending hop

theorem applySeedBatch (h : Abreast K bound r r') {rows : List SeedRow} (hrows : ∀ row ∈ rows,
    bound ≤ row.version) : Abreast K bound (applySeedBatch r rows) (Tablet.applySeedBatch r' rows) := by
  rw [Tablet.applySeedBatch, Tablet.applySeedBatch, h.sealed]
  split_ifs
  · refine h.push fun op hop => ?_
    obtain ⟨row, hrow, heq⟩ := mem_filterMap.mp hop
    split_ifs at heq
    cases heq
    exact hrows row hrow
  · exact h

theorem refused {ρ : Type} (h : Abreast K bound r r') (report : ρ) :
    Mirrors (AbreastReporting K bound) (some (r.flushPending, report)) (some (r'.flushPending, report)) :=
  .some ⟨h.flush.toAbreast, rfl⟩

section

variable {tablet : Nat} {voters : List Text} (h : Abreast K bound r r') (hts : From bound ts)

include h hts

theorem applyPut {value : Bytes} :
    Mirrors (Abreast K bound) (applyPut r key value ts) (Tablet.applyPut r' key value ts) := by
  rw [Tablet.applyPut, Tablet.applyPut, h.sealed]
  split_ifs
  · exact .some h
  · exact .mapSame fun version hversion => h.push (by simpa using hts version hversion)

theorem applyBatch {puts : List (Bytes × Bytes)} :
    Mirrors (Abreast K bound) (applyBatch r puts ts) (Tablet.applyBatch r' puts ts) := by
  rw [Tablet.applyBatch, Tablet.applyBatch, h.sealed]
  split_ifs
  · refine .mapSame fun version hversion => h.push fun op hop => ?_
    obtain ⟨p, -, rfl⟩ := mem_map.mp hop
    exact hts version hversion
  · exact .some h

theorem applyKindBatch {writes : List KindWrite} {changeLog : List (Bytes × Bytes)} :
    Mirrors (AbreastReporting K bound) (applyKindBatch r writes changeLog ts)
    (Tablet.applyKindBatch r' writes changeLog ts) := by
  rw [Tablet.applyKindBatch, Tablet.applyKindBatch, h.sealed]
  split
  · exact .some ⟨h, rfl⟩
  · split_ifs
    · exact .some ⟨h, rfl⟩
    · exact .mapSame fun version hversion => ⟨h.push (bound_le_derived (hts version hversion)), rfl⟩

theorem applyDelete : Mirrors (Abreast K bound) (applyDelete r key ts) (Tablet.applyDelete r' key ts) := by
  rw [Tablet.applyDelete, Tablet.applyDelete, h.sealed]
  split_ifs
  · exact .some h
  · exact .mapSame fun version hversion => h.push (by simpa using hts version hversion)

theorem applyFreeze : Mirrors (Abreast K bound) (applyFreeze tablet r ts) (Tablet.applyFreeze tablet r' ts) := by
  rw [Tablet.applyFreeze, Tablet.applyFreeze, h.frozen]
  split_ifs
  · exact .some h
  · exact .mapSame fun version hversion => ((h.merged (hts version hversion)).latch ts).toAbreast

theorem applySplitTablet {splitKey : Bytes} {children : SplitChild × SplitChild} :
    Mirrors (Abreast K bound) (applySplitTablet tablet r voters splitKey children ts)
      (Tablet.applySplitTablet tablet r' voters splitKey children ts) := by
  rw [Tablet.applySplitTablet, Tablet.applySplitTablet, h.frozen]
  split_ifs
  · exact .some h
  · exact .mapSame fun version hversion =>
      (((h.merged (hts version hversion)).latch ts).merge Replica.pending_flushPending
        (hts version hversion)).toAbreast

theorem applyReadCeiling : Mirrors (Abreast K bound) (applyReadCeiling tablet r ts)
    (Tablet.applyReadCeiling tablet r' ts) := by
  refine .mapSame fun version hversion => ?_
  have hraised : Abreast K bound { r with committedCeiling := max r.committedCeiling version }
      { r' with committedCeiling := max r'.committedCeiling version } :=
      { h with ceiling := congrArg (max · version) h.ceiling }
  exact (hraised.merged (hts version hversion)).toAbreast

variable (hK : ∀ key, K (physical kindBase key))

include hK

theorem applyCas {expected : Option Bytes} {value : Bytes} :
    Mirrors (AbreastReporting K bound) (applyCas r key expected value ts)
    (Tablet.applyCas r' key expected value ts) := by
  rw [Tablet.applyCas, Tablet.applyCas, h.flush.sealed, readEnvelope_similar hK h.flush.engine]
  split_ifs
  · exact h.refused _
  · refine .bindSame fun row _ => ?_
    dsimp only
    split_ifs
    · exact .bindSame fun version hversion => .some ⟨(h.merged (hts version hversion)).toAbreast, rfl⟩
    · exact h.refused _

theorem applyKindEval : Mirrors (AbreastReporting K bound) (applyKindEval items r e ts)
    (Tablet.applyKindEval items r' e ts) := by
  rw [Tablet.applyKindEval, Tablet.applyKindEval, h.flush.sealed, readEnvelope_similar hK h.flush.engine]
  split
  · exact h.refused _
  · refine .bindSame fun version hversion => .bindSame fun row _ => ?_
    have hbound := hts version hversion
    rw [keyReachedByEntry_similar hK h.flush.engine hbound]
    split
    · exact h.refused _
    · split
      · exact h.refused _
      · refine .bindSame fun stored _ => .bindSame fun decision _ => ?_
        cases decision with
        | applied => exact .some ⟨(h.flush.push (bound_le_derived hbound)).toAbreast, rfl⟩
        | _ => exact h.refused _

theorem applyKindEvalBatch {entries : List (KindEvalEntry Cond)} :
    Mirrors (AbreastReporting K bound) (applyKindEvalBatch items r entries ts)
    (Tablet.applyKindEvalBatch items r' entries ts) := by
  rw [Tablet.applyKindEvalBatch, Tablet.applyKindEvalBatch, h.flush.sealed]
  dsimp only
  split
  · exact h.refused _
  · refine .bindSame fun version hversion => ?_
    simp only [keyReachedByEntry_similar hK h.flush.engine (hts version hversion),
      evalBatchItem_similar hK h.flush.engine]
    split_ifs
    · exact h.refused _
    · refine .bindSame fun st hst => .some ⟨(h.flush.push fun op hop => ?_).toAbreast, rfl⟩
      have hkept : EvalBatchKept items r.flushPending.engine version entries st :=
        foldlM_preserves hst (fun e he st st' hst h => hst.step he h) ⟨by simp, by simp⟩
      obtain ⟨_, _, _, _, _, hderived⟩ := hkept.ops op (mem_of_mem_keepLast hop)
      rw [hderived.version_eq]
      exact hts version hversion

theorem applyTxnCommit : Mirrors (Abreast K bound) (applyTxnCommit r txnId recordKey ts)
    (Tablet.applyTxnCommit r' txnId recordKey ts) := by
  rw [Tablet.applyTxnCommit, Tablet.applyTxnCommit, readRecordAt_similar hK h.flush.engine]
  split
  · exact .some h.flush.toAbreast
  · split_ifs
    · nofun
    · exact .mapSame fun version hversion => (h.merged (hts version hversion)).toAbreast
    · exact .some h.flush.toAbreast

theorem applyTxnAbort {orphan : Option HlcTimestamp} :
    Mirrors (Abreast K bound) (applyTxnAbort r txnId recordKey ts orphan)
      (Tablet.applyTxnAbort r' txnId recordKey ts orphan) := by
  unfold Tablet.applyTxnAbort
  dsimp only
  rw [readRecordAt_similar hK h.flush.engine]
  split
  · split
    · exact .some h.flush.toAbreast
    · exact .mapSame fun version hversion => (h.merged (hts version hversion)).toAbreast
  · split_ifs
    · nofun
    · exact .mapSame fun version hversion => (h.merged (hts version hversion)).toAbreast
    · exact .some h.flush.toAbreast

theorem applyTxnSettle : Mirrors (Abreast K bound) (applyTxnSettle r entries ts)
    (Tablet.applyTxnSettle r' entries ts) := by
  refine Mirrors.mono (Mirrors.foldlM (R := fun b b' => Alike K bound b b' ∧ b.pending = [])
    (fun entry _ b b' ⟨hb, hempty⟩ => ?_) ⟨h.flush, Replica.pending_flushPending⟩) fun _ _ h => h.1.toAbreast
  have hsame : Mirrors (fun b b' => Alike K bound b b' ∧ b.pending = []) (some b) (some b') := .some ⟨hb, hempty⟩
  have hsettle (record : TxnRecord) (outcome : TxnOutcome) :
    Mirrors (fun b b' => Alike K bound b b' ∧ b.pending = [])
      (settleOne.settle ts entry b record outcome) (settleOne.settle ts entry b' record outcome) :=
    .mapSame fun version hversion => ⟨hb.merge hempty (hts version hversion), hempty⟩
  rw [settleOne, settleOne, hb.sealed, readRecordAt_similar hK hb.engine]
  split_ifs
  · exact hsame
  · split
    · exact hsame
    · split_ifs
      · exact hsame
      · split
        · exact hsame
        · exact hsame
        · exact hsettle _ _
        · exact hsettle _ _

theorem applyTxnReap : Mirrors (Abreast K bound) (applyTxnReap r entries ts)
    (Tablet.applyTxnReap r' entries ts) := by
  refine Mirrors.mono (Mirrors.foldlM (R := Alike K bound) (fun entry _ b b' hb => ?_) h.flush) fun _ _ h =>
    h.toAbreast
  rw [reapOne, reapOne, hb.sealed, readRecordAt_similar hK hb.engine]
  split_ifs
  · exact .some hb
  · split
    · exact .some hb
    · split
      · split_ifs
        · exact .mapSame fun version hversion => hb.push (by simpa using hts version hversion)
        · exact .some hb
      · exact .some hb

omit h hts

/-- The intents of a stage with distinct keys: each finds its key as the stage found it. -/
theorem stageWrites {ps : List (TxnWrite Cond × Payload)} (h : Alike K bound r r') (hempty : r.pending = [])
    (hversion : bound ≤ version) (hdistinct : (ps.map fun p => p.1.key).Nodup)
      (hprior : ∀ p ∈ ps, CarriesPrior r.engine (physical kindBase p.1.key))
    (hown : ∀ p ∈ ps, ∀ i, HoldsIntent r.engine (physical kindBase p.1.key) i → i.txnId = s.txnId) :
    Mirrors (fun b b' => Alike K bound b b' ∧ b.pending = []) (ps.foldlM (stageWrite s version) r)
      (ps.foldlM (stageWrite s version) r') := by
  induction ps generalizing r r' with
  | nil => exact .some ⟨h, hempty⟩
  | cons p ps ih =>
    rw [foldlM_cons, foldlM_cons]
    have hfirst : Mirrors (fun b b' => (Alike K bound b b' ∧ b.pending = []) ∧
      ∀ key, key ≠ physical kindBase p.1.key →
        b.engine.newest key = r.engine.newest key) (stageWrite s version r p) (stageWrite s version r' p) := by
      rw [stageWrite, stageWrite, stageIntentPrior_similar hK h.engine (hprior p mem_cons_self)
        (hown p mem_cons_self)]
      refine .mapSame fun prior _ => ⟨⟨h.merge hempty hversion, hempty⟩, fun key hne => ?_⟩
      rw [Replica.engine_merge, MemoryEngine.newest_mergeSlot_of_ne hne.symm]
    refine .bind hfirst fun b b' _ ⟨⟨hb, hempty⟩, hsame⟩ => ?_
    have hholds : ∀ q ∈ ps, ∀ i, HoldsIntent b.engine (physical kindBase q.1.key) i →
        HoldsIntent r.engine (physical kindBase q.1.key) i := by
      intro q hq i hi
      have hne : physical kindBase q.1.key ≠ physical kindBase p.1.key := by
        intro heq
        refine (nodup_cons.mp hdistinct).1 (mem_map.mpr ⟨q, hq, (cons.inj heq).2⟩)
      rwa [HoldsIntent, readEnvelope, MemoryEngine.read, hsame _ hne] at hi
    exact ih hb hempty (nodup_cons.mp hdistinct).2 (fun q hq i hi => hprior q (mem_cons_of_mem _ hq) i
      (hholds q hq i hi)) (fun q hq i hi => hown q (mem_cons_of_mem _ hq) i (hholds q hq i hi))

theorem stageAll {payloads : List Payload} (h : Alike K bound r r') (hempty : r.pending = [])
    (hversion : bound ≤ version) (hmeets : StageMeets s r.engine) (hblocked : blockedBy s r.engine = some none)
    (hpayloads : evaluateWrites items s r.engine s.writes = some (.ok payloads)) (ts : HlcTimestamp) :
    Mirrors (Abreast K bound) (stageAll s version ts payloads r) (Tablet.stageAll s version ts payloads r') := by
  have hmem : ∀ p ∈ s.writes.zip payloads, p.1 ∈ s.writes := fun p hp => (of_mem_zip hp).1
  have hdistinct : ((s.writes.zip payloads).map fun p => p.1.key).Nodup := by
    have hfst : ((s.writes.zip payloads).map fun p => p.1.key) = s.writes.map fun w => w.key := by
      have hzip := congrArg (map fun w => w.key) (map_fst_zip (evaluateWrites_zip hpayloads).1.le)
      rwa [map_map] at hzip
    rw [hfst]
    exact hmeets.distinct
  refine .bind (stageWrites hK h hempty hversion hdistinct
    (fun p hp => hmeets.prior p.1 (hmem p hp)) fun p hp i hi => own_of_unblocked hblocked (hmem p hp) hi)
    fun b b' _ ⟨hb, hempty⟩ => ?_
  have hmarkers : ∀ op ∈ (materializeDerived [] (s.writes.filterMap (·.stageMarker)) version 0).1,
    bound ≤ op.version :=
    bound_le_derived hversion
  dsimp only
  split
  · -- the record is merged in front of the queued markers
    exact .some ((hb.merge hempty hversion).push hmarkers).toAbreast
  · exact .some (hb.push hmarkers).toAbreast

include h hts

theorem applyTxnStage (hmeets : StageMeets s r.view) :
    Mirrors (AbreastReporting K bound) (applyTxnStage items s r ts) (Tablet.applyTxnStage items s r' ts) := by
  have hsimilar := h.flush.engine
  rw [← Replica.engine_flushPending] at hmeets
  rw [Tablet.applyTxnStage, Tablet.applyTxnStage]
  dsimp only
  refine .bindSame fun version hversion => ?_
  have hbound := hts version hversion
  rw [engineAhead_similar hK hsimilar hbound, alreadyDecided_similar hK hsimilar,
    blockedBy_similar hK hsimilar, resurrectionAttempt_similar hK hsimilar,
    conditionFailure_similar hK hsimilar, evaluateWrites_similar hK hsimilar, h.flush.sealed]
  refine .bindSame fun ahead _ => .bindSame fun blocked hblocked => .bindSame fun resurrection _ => ?_
  split
  · exact h.refused _
  cases blocked with
  | some found => exact h.refused _
  | none =>
    dsimp only
    split
    · exact h.refused _
    refine .bindSame fun failure _ => ?_
    cases failure with
    | some key => exact h.refused _
    | none =>
      refine .bindSame fun evaluated hevaluated => ?_
      cases evaluated with
      | error failure => exact h.refused _
      | ok payloads => 
        exact .map (stageAll hK h.flush Replica.pending_flushPending hbound hmeets hblocked hevaluated ts)
          fun b b' hb => ⟨hb, rfl⟩

theorem applyTxnResolve (host : Host Cond) {keys : List Bytes}
    (hprior : ∀ key ∈ keys, CarriesPrior r.view (physical kindBase key)) :
    Mirrors (AbreastReporting K bound) (applyTxnResolve r txnId recordKey keys outcome ts)
      (Tablet.applyTxnResolve r' txnId recordKey keys outcome ts) := by
  have hsimilar := h.flush.engine
  rw [Tablet.applyTxnResolve, Tablet.applyTxnResolve]
  dsimp only
  rw [readRecordAt_similar hK hsimilar, ownIntent_similar hK hsimilar, h.flush.sealed,
    Replica.engine_flushPending]
  refine .bindSame fun resolved hresolved => .bindSame fun version hversion => ?_
  split
  · exact h.refused _
  rename_i hagrees
  split
  · exact h.refused _
  have hcongr : (keys.zip resolved).foldlM (resolveKey r'.flushPending.engine txnId outcome version) ([], 0) =
      (keys.zip resolved).foldlM (resolveKey r.view txnId outcome version) ([], 0) := by
    refine foldlM_congr (fun p hp acc => resolveKey_congr fun found hfound => ?_) _
    have hown := (mapM_zip hresolved).2 p hp
    rw [hfound] at hown
    exact hprior p.1 (of_mem_zip hp).1 _ (holdsIntent_of_ownIntent hown)
  rw [hcongr]
  refine .bindSame fun acc hacc => .some ⟨(h.flush.push fun op hop => ?_).toAbreast, rfl⟩
  have hwrite : Writes host r.view (.txnResolve txnId recordKey keys outcome ts) r.view op :=
    resolved_writes hversion hresolved (Bool.not_eq_true _ ▸ hagrees) hacc op hop r.view
  obtain ⟨_, _, ⟨⟩, hversion', heq⟩ := version_of_writes hwrite nofun
  exact heq ▸ hts _ hversion'

end

section Entries

variable (h : Abreast K bound r r')

include h

theorem applyCommand (hK : ∀ key, K (physical kindBase key)) {voters : List Text}
    (hcmd : Mirrorable bound r.view cmd) :
    Mirrors (AbreastReporting K bound) (applyCommand host voters r cmd)
      (Tablet.applyCommand host voters r' cmd) := by
  have silent {x y : Option Replica} (h : Mirrors (Abreast K bound) x y) :
      Mirrors (AbreastReporting K bound) (x.map (·, ApplyOutcome.silent)) (y.map (·, ApplyOutcome.silent)) :=
    h.map fun _ _ h => ⟨h, rfl⟩
  have reported {ρ : Type} {report : ρ → ApplyOutcome} {x y : Option (Replica × ρ)}
    (h : Mirrors (AbreastReporting K bound) x y) :
      Mirrors (AbreastReporting K bound) (x.map fun p => (p.1, report p.2)) (y.map fun p => (p.1, report p.2)) :=
    h.map fun _ _ h => ⟨h.1, congrArg report h.2⟩
  cases cmd with
  | put key value ts => exact silent (h.applyPut (hcmd.version ts rfl))
  | batch puts ts => exact silent (h.applyBatch (hcmd.version ts rfl))
  | kindBatch writes changeLog ts => exact reported (h.applyKindBatch (hcmd.version ts rfl))
  | kindEval e ts =>
    exact (h.applyKindEval (hcmd.version ts rfl) hK).map fun _ _ h =>
      ⟨h.1, congrArg (fun q => ApplyOutcome.kindEval q.1 q.2) h.2⟩
  | kindEvalBatch entries ts =>
    exact (h.applyKindEvalBatch (hcmd.version ts rfl) hK).map fun _ _ h =>
      ⟨h.1, congrArg (fun q => ApplyOutcome.kindEvalBatch q.1 q.2) h.2⟩
  | seedBatch rows ts => exact .some ⟨h.applySeedBatch (hcmd.seeded rows ts rfl), rfl⟩
  | delete key ts => exact silent (h.applyDelete (hcmd.version ts rfl))
  | cas key expected value ts => exact reported (h.applyCas (hcmd.version ts rfl) hK)
  | freeze ts => exact silent (h.applyFreeze (hcmd.version ts rfl))
  | splitTablet splitKey children ts => exact silent (h.applySplitTablet (hcmd.version ts rfl))
  | readCeiling ts => exact silent (h.applyReadCeiling (hcmd.version ts rfl))
  | txnStage s ts => exact reported (h.applyTxnStage (hcmd.version ts rfl) hK (hcmd.stage s ts rfl))
  | txnCommit txnId recordKey ts => exact silent (h.applyTxnCommit (hcmd.version ts rfl) hK)
  | txnAbort txnId recordKey ts orphan => exact silent (h.applyTxnAbort (hcmd.version ts rfl) hK)
  | txnCommitSealChecked _ _ ts =>
    rw [Tablet.applyCommand, Tablet.applyCommand, h.sealed]
    split_ifs
    · exact .some ⟨h, rfl⟩
    · exact silent (h.applyTxnCommit (hcmd.version ts rfl) hK)
  | txnAbortSealChecked _ _ ts =>
    rw [Tablet.applyCommand, Tablet.applyCommand, h.sealed]
    split_ifs
    · exact .some ⟨h, rfl⟩
    · exact silent (h.applyTxnAbort (hcmd.version ts rfl) hK)
  | txnResolve txnId recordKey keys outcome ts =>
    exact reported (h.applyTxnResolve (hcmd.version ts rfl) hK host
      (hcmd.resolve txnId recordKey keys outcome ts rfl))
  | txnSettle entries ts => exact silent (h.applyTxnSettle (hcmd.version ts rfl) hK)
  | txnReap entries ts => exact silent (h.applyTxnReap (hcmd.version ts rfl) hK)
  | noOp => exact .some ⟨h, rfl⟩

theorem assertTsMonotonic (ts : Option HlcTimestamp) :
    Mirrors (Abreast K bound) (assertTsMonotonic r ts) (Tablet.assertTsMonotonic r' ts) := by
  cases ts with
  | none => exact .some h
  | some ts =>
    rw [Tablet.assertTsMonotonic, Tablet.assertTsMonotonic]
    split_ifs with hlater hlater'
    · exact .some { h with clock := fun last' heq => ⟨last', heq, le_rfl⟩ }
    · refine absurd ?_ hlater'
      cases hlast' : r'.maxAppliedTs with
      | none => rfl
      | some last' =>
        obtain ⟨last, hlast, hle⟩ := h.clock last' hlast'
        rw [hlast] at hlater
        exact decide_eq_true (hle.trans_lt (of_decide_eq_true hlater))
    · nofun
    · nofun

theorem applyEntry (hK : ∀ key, K (physical kindBase key)) {entry : LogEntry Cond}
    (hentry : Mirrorable bound r.view entry.command) :
    Mirrors (AbreastReporting K bound) (applyEntry host r entry) (Tablet.applyEntry host r' entry) :=
  .bind (h.assertTsMonotonic _) fun _ _ hchecked hb =>
    hb.applyCommand hK (assertTsMonotonic_view hchecked ▸ hentry)

/-- Replicas that are abreast apply a log alike and report the same. -/
theorem applyReporting (hK : ∀ key, K (physical kindBase key)) {log : List (LogEntry Cond)}
    (hlog : Along host (fun r entry => Mirrorable bound r.view entry.command) r log) :
    Mirrors (AbreastReporting K bound) (applyReporting host r log) (Tablet.applyReporting host r' log) := by
  induction log generalizing r r' with
  | nil => exact .some ⟨h, rfl⟩
  | cons entry log ih =>
    refine .bind (h.applyEntry hK hlog.1) fun p p' hp hb => ?_
    obtain ⟨b, out⟩ := p
    obtain ⟨b', out'⟩ := p'
    obtain ⟨hb, hout⟩ := hb
    obtain rfl : out' = out := hout
    refine .bind (ih hb (hlog.2 b out' hp)) fun q q' _ hq => ?_
    exact .some ⟨hq.1, congrArg (out' :: ·) hq.2⟩

end Entries

end Abreast

end AnimusDb.Tablet
