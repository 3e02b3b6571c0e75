import AnimusDb.LsmWal
import AnimusDb.Mvcc
import Mathlib.Data.List.Induction
import Mathlib.Data.List.Lex

/-! Sorted tables of the storage engine: the Bloom filter over a table's keys, the blocks its writer cuts,
and the point and range reads of its reader. A table is what its writer was given; the bytes of a block
and of the index are not modelled. -/

open OrderedList (Ordered)
open Mvcc (Answers Newest Winners)
open List

namespace AnimusDb.Lsm

scoped instance byteOrder : LinearOrder UInt8 where
  le_refl _ := UInt8.le_refl _
  le_trans _ _ _ := UInt8.le_trans
  lt_iff_le_not_ge a b := by
    rw [UInt8.lt_iff_toNat_lt, UInt8.le_iff_toNat_le, UInt8.le_iff_toNat_le]
    omega
  le_antisymm _ _ := UInt8.le_antisymm
  le_total := UInt8.le_total
  toDecidableLE := inferInstance
  toDecidableLT := inferInstance
  toDecidableEq := inferInstance

abbrev Record := Mvcc.Record Key Value

abbrev Store := Mvcc.Store Key Value

/-- `Version::MAX`. -/
def versionMax : Version := 2 ^ 64 - 1

variable (fmt : TableFormat) (st : WriterState)

inductive HashScheme where
  | legacyFnv
  | splitMix
deriving DecidableEq

/-- The bits of the filter, its probe count, and the scheme they were set with. -/
structure BloomFilter where
  bits : List Bool
  k : Nat
  scheme : HashScheme

def fnvOffset : UInt64 := 0xcbf29ce484222325

def legacyFnvOffset2 : UInt64 := 0x9e3779b97f4a7c15

def splitmixGamma : UInt64 := 0x9e3779b97f4a7c15

def fnv1a (bytes : Key) (offsetBasis : UInt64) : UInt64 :=
  bytes.foldl (fun hash b => (hash ^^^ b.toUInt64) * 0x100000001b3) offsetBasis

/-- One step: the advanced state and the output. -/
def splitmix64Next (state : UInt64) : UInt64 × UInt64 :=
  let state := state + splitmixGamma
  let z := (state ^^^ (state >>> 30)) * 0xbf58476d1ce4e5b9
  let z := (z ^^^ (z >>> 27)) * 0x94d049bb133111eb
  (state, z ^^^ (z >>> 31))

def baseHashes (scheme : HashScheme) (key : Key) : UInt64 × UInt64 :=
  match scheme with
  | .legacyFnv =>
    let h1 := fnv1a key fnvOffset
    let h2 := fnv1a key legacyFnvOffset2
    (h1, if h2 = 0 then 1 else h2)
  | .splitMix =>
    let (state, h1) := splitmix64Next (fnv1a key fnvOffset)
    let (_, h2) := splitmix64Next state
    (h1, h2 ||| 1)

/-- The `i`-th probe of `m` bits. -/
def probe (h1 h2 : UInt64) (i m : Nat) : Nat := (h1 + UInt64.ofNat i * h2).toNat % m

def minBits : Nat := 64

/-- What a table's writer takes from outside the model: the sizing formula of its filter, which is computed
in floating point, and the size of the compressed file. -/
structure TableFormat where
  bloomParams : Nat → Nat × Nat
  fileSize : List Record → Nat

/-- The formula's bits and probes, clamped. -/
def optimalParams (n : Nat) : Nat × Nat :=
  (max (fmt.bloomParams n).1 minBits, min (max (fmt.bloomParams n).2 1) 30)

/-- The bits a key is probed at. -/
def probes (scheme : HashScheme) (k m : Nat) (key : Key) : List Nat :=
  let (h1, h2) := baseHashes scheme key
  (range k).map fun i => probe h1 h2 i m

def setBits (positions : List Nat) (bits : List Bool) : List Bool :=
  positions.foldl (fun bits bit => bits.set bit true) bits

def BloomFilter.build (keys : List Key) : BloomFilter :=
  if keys.length = 0 then ⟨[], 1, .splitMix⟩
  else
    let (mBits, k) := optimalParams fmt keys.length
    let m := (mBits + 7) / 8 * 8
    ⟨setBits (keys.flatMap (probes .splitMix k m)) (replicate m false), k, .splitMix⟩

def BloomFilter.mayContain (bloom : BloomFilter) (key : Key) : Bool :=
  if bloom.bits.isEmpty then false
  else (probes bloom.scheme bloom.k bloom.bits.length key).all fun bit => bloom.bits.getD bit false

@[simp] theorem length_setBits (positions : List Nat) (bits : List Bool) :
    (setBits positions bits).length = bits.length := by
  induction positions generalizing bits with
  | nil => rfl
  | cons p ps ih => exact (ih _).trans length_set

theorem getElem?_setBits {positions : List Nat} {bits : List Bool} {bit : Nat}
    (h : bits[bit]? = some true ∨ (bit ∈ positions ∧ bit < bits.length)) :
    (setBits positions bits)[bit]? = some true := by
  induction positions generalizing bits with
  | nil => exact h.resolve_right fun h => absurd h.1 not_mem_nil
  | cons p ps ih =>
    refine ih ?_
    by_cases hp : p = bit
    · subst hp
      have hlt : p < bits.length := by
        rcases h with h | h
        · exact (List.getElem?_eq_some_iff.mp h).1
        · exact h.2
      exact .inl (getElem?_set_self hlt)
    · rw [getElem?_set_ne hp, length_set]
      rcases h with h | ⟨h, hlt⟩
      · exact .inl h
      · exact .inr ⟨(mem_cons.mp h).resolve_left (Ne.symm hp), hlt⟩

theorem BloomFilter.mayContain_build {keys : List Key} {key : Key}
    (hkey : key ∈ keys) : (BloomFilter.build fmt keys).mayContain key = true := by
  have hne : keys.length ≠ 0 := (length_pos_of_mem hkey).ne'
  unfold build mayContain
  simp only [if_neg hne, length_setBits, length_replicate]
  set m := ((optimalParams fmt keys.length).1 + 7) / 8 * 8 with hm
  have hpos : 0 < m := by
    have : minBits ≤ (optimalParams fmt keys.length).1 := le_max_right _ _
    simp only [minBits] at this
    omega
  have hempty : (setBits (keys.flatMap (probes .splitMix (optimalParams fmt keys.length).2 m))
      (replicate m false)).isEmpty = false := by
    rw [← Bool.not_eq_true, isEmpty_iff_length_eq_zero, length_setBits, length_replicate]
    omega
  rw [hempty, if_neg Bool.false_ne_true, all_eq_true]
  intro bit hbit
  have hlt : bit < m := by
    obtain ⟨i, -, rfl⟩ := mem_map.mp hbit
    exact Nat.mod_lt _ hpos
  rw [getD_eq_getElem?_getD, getElem?_setBits (.inr ⟨mem_flatMap.mpr ⟨key, hkey, hbit⟩, ?_⟩)]
  · rfl
  · rwa [length_replicate]

variable {records : List Record}

def targetBlockBytes : Nat := 4 * 1024

/-- Length of the shared leading-byte run of two keys. -/
def commonPrefixLen (a b : Key) : Nat := ((a.zip b).takeWhile fun (x, y) => x = y).length

/-- Bytes of one record behind the previous key of its block. -/
def encodedLen (rec : Record) (prevKey : Key) : Nat :=
  4 + 4 + (rec.key.length - commonPrefixLen prevKey rec.key) + 8 + 1 + 4 + (rec.value.elim 0 length)

/-- An index entry together with the block it points to. -/
structure BlockIndex where
  firstKey : Key
  block : List Record
deriving DecidableEq

structure WriterState where
  blockBuf : Nat
  block : List Record
  prevKey : Key
  index : List BlockIndex

def WriterState.flushBlock : WriterState :=
  match st.block with
  | [] => st
  | first :: _ =>
    { st with blockBuf := 0, block := [], index := st.index ++ [⟨first.key, st.block⟩] }

/-- Encode a record into the block in progress; the first record of a block stores its full key. -/
def WriterState.encode (rec : Record) : WriterState :=
  { st with
    blockBuf := st.blockBuf + encodedLen rec (if st.block.isEmpty then [] else st.prevKey)
    block := st.block ++ [rec], prevKey := rec.key }

def WriterState.push (rec : Record) : WriterState :=
  if targetBlockBytes ≤ (st.encode rec).blockBuf then (st.encode rec).flushBlock else st.encode rec

def writeIndex (records : List Record) : List BlockIndex :=
  (records.foldl WriterState.push ⟨0, [], [], []⟩).flushBlock.index

/-- Per-table metadata as the manifest holds it. -/
structure SsTableMeta where
  seq : Nat
  level : Nat
  minKey : Option Key
  maxKey : Option Key
  minVersion : Version
  maxVersion : Version
  fileSize : Nat
  bloom : BloomFilter
  hasBloom : Bool

/-- A table: where it stands in the tree, and every version of its keys. -/
structure SsTable where
  seq : Nat
  level : Nat
  records : Store

/-- The metadata `SsTableWriter::write` returns. -/
def SsTable.meta (t : SsTable) : SsTableMeta :=
  let records := t.records.records
  { seq := t.seq
    level := t.level, minKey := records.head?.map (·.key), maxKey := records.getLast?.map (·.key)
    minVersion := if records.isEmpty then 0 else records.foldl (fun m r => min m r.version) versionMax
    maxVersion := if records.isEmpty then 0 else records.foldl (fun m r => max m r.version) 0
    fileSize := fmt.fileSize records, bloom := .build fmt t.records.keys, hasBloom := true }

def SsTable.index (t : SsTable) : List BlockIndex := writeIndex t.records.records

/-- The blocks an index points to are the records in order, each under its first key. -/
structure Indexed (index : List BlockIndex) (records : List Record) : Prop where
  flat : index.flatMap (·.block) = records
  headed : ∀ b ∈ index, ∃ r rest, b.block = r :: rest ∧ b.firstKey = r.key

/-- What the writer has taken in: finished blocks, then the block in progress. -/
def WriterState.Holds (records : List Record) : Prop :=
  ∃ done, Indexed st.index done ∧ done ++ st.block = records

theorem WriterState.Holds.flushBlock {st : WriterState}
    (h : st.Holds records) : Indexed st.flushBlock.index records ∧ st.flushBlock.block = [] := by
  obtain ⟨done, hdone, rfl⟩ := h
  unfold WriterState.flushBlock
  split
  · rename_i hblock
    rw [hblock, append_nil]
    exact ⟨hdone, rfl⟩
  · rename_i first rest hblock
    refine ⟨⟨?_, forall_mem_append.mpr ⟨hdone.headed, forall_mem_singleton.mpr ⟨first, rest, hblock, rfl⟩⟩⟩, rfl⟩
    simp [hdone.flat, hblock]

theorem WriterState.Holds.push {st : WriterState} (h : st.Holds records) (r : Record) :
    (st.push r).Holds (records ++ [r]) := by
  have hencode : (st.encode r).Holds (records ++ [r]) := by
    obtain ⟨done, hdone, rfl⟩ := h
    exact ⟨done, hdone, (append_assoc _ _ _).symm⟩
  unfold WriterState.push
  split_ifs
  · obtain ⟨hindex, hblock⟩ := hencode.flushBlock
    exact ⟨_, hindex, by rw [hblock, append_nil]⟩
  · exact hencode

theorem indexed_writeIndex (records : List Record) : Indexed (writeIndex records) records := by
  have hfold : ∀ (rest : List Record) (st : WriterState) (before : List Record),
      st.Holds before → (rest.foldl WriterState.push st).Holds (before ++ rest) := by
    intro rest
    induction rest with
    | nil => simp
    | cons r rest ih =>
      intro st before h
      simpa using ih (st.push r) (before ++ [r]) (h.push r)
  have hall := hfold records ⟨0, [], [], []⟩ [] ⟨[], ⟨rfl, by simp⟩, rfl⟩
  exact hall.flushBlock.1

/-- Whether a key could be in the table: its key range, then the filter. -/
def SsTableMeta.mayContain (m : SsTableMeta) (key : Key) : Bool :=
  match m.minKey, m.maxKey with
  | some lo, some hi =>
    if key < lo ∨ hi < key then false else !m.hasBloom || m.bloom.mayContain key
  | _, _ => false

/-- The number of leading items that meet `p`, all later ones not meeting it. -/
def partitionPoint {α : Type} (p : α → Bool) (items : List α) : Nat := (items.takeWhile p).length

/-- The blocks that may hold records for `key`. -/
def blocksForKey (index : List BlockIndex) (key : Key) : Nat × Nat :=
  let below := partitionPoint (fun b => b.firstKey < key) index
  let atOrBelow := partitionPoint (fun b => b.firstKey ≤ key) index
  (below - 1, atOrBelow)

/-- Take a record of the key that is visible and newer than the best so far. -/
def considerRecord (key : Key) (version : Version) (best : Option Record) (r : Record) : Option Record :=
  if r.key = key ∧ r.version ≤ version ∧ best.all (·.version < r.version) then some r else best

/-- The newest visible record of a key in one block. -/
def bestInBlock (key : Key) (version : Version) (block : List Record) : Option Record :=
  block.foldl (considerRecord key version) none

/-- Candidate blocks from the last one backwards, until one holds a visible record. -/
def recordsForKey (index : List BlockIndex) (key : Key) (version : Version) : Option Record :=
  let (first, last) := blocksForKey index key
  ((index.take last).drop first).reverse.findSome? fun b => bestInBlock key version b.block

def SsTable.getAt (t : SsTable) (key : Key) (version : Version) : Option Record :=
  recordsForKey t.index key version

def SsTable.latest (t : SsTable) (key : Key) : Option Record := t.getAt key versionMax

/-- A half-open range of keys, unbounded above without an end. -/
def InRange (start : Key) (stop : Option Key) (key : Key) : Prop :=
  start ≤ key ∧ ∀ e ∈ stop, key < e

instance (start : Key) (stop : Option Key) (key : Key) : Decidable (InRange start stop key) :=
  inferInstanceAs (Decidable (_ ∧ _))

/-- Fold one record into the newest per key. -/
def scanRow (start : Key) (stop : Option Key) (version : Version) (perKey : List Record) (r : Record) :
    List Record :=
  if InRange start stop r.key ∧ r.version ≤ version then
    OrderedList.upsert Mvcc.Record.key (fun cur r => if cur.version < r.version then r else cur) r perKey
  else perKey

/-- The newest record as of `version` of every key in the range. -/
def SsTable.scanAt (t : SsTable) (start : Key) (stop : Option Key) (version : Version) : List Record :=
  let first := (blocksForKey t.index start).1
  -- blocks are ordered by first key, so nothing behind the end can be in the range
  let blocks := (t.index.drop first).takeWhile fun b => stop.all fun e => b.firstKey < e
  (blocks.flatMap (·.block)).foldl (scanRow start stop version) []

/-- Every record, for compaction. -/
def SsTable.fullScan (t : SsTable) : List Record := t.index.flatMap (·.block)

variable {b : BlockIndex} {r : Record}

variable {index : List BlockIndex} {key : Key} {version : Version}

theorem answers_considerRecord {S : Set Record} {best : Option Record} (hbest : Answers S key version best)
    (r : Record) : Answers (S ∪ {r}) key version (considerRecord key version best r) := by
  unfold considerRecord
  split_ifs with h
  · obtain ⟨hkey, hle, hall⟩ := h
    refine ⟨.inr rfl, hkey, hle, ?_⟩
    rintro s (hs | rfl) hskey hsle
    · cases best with
      | none => exact absurd hsle (Nat.not_le.mpr (hbest s hs hskey))
      | some b =>
        have hlt : b.version < r.version := by simpa using hall
        exact (hbest.newest s hs hskey hsle).trans hlt.le
    · exact le_rfl
  · refine hbest.skip ?_
    rintro s rfl hskey hsle
    cases best with
    | none => exact absurd ⟨hskey, hsle, rfl⟩ h
    | some b => exact ⟨b, rfl, by simpa [hskey, hsle] using h⟩

theorem answers_bestInBlock (block : List Record) :
    Answers {r | r ∈ block} key version (bestInBlock key version block) := by
  have hnone : Answers (∅ : Set Record) key version none := fun s hs => absurd hs (Set.notMem_empty s)
  have hall : Answers (∅ ∪ {r | r ∈ block}) key version (bestInBlock key version block) :=
    Mvcc.foldl_gather (I := fun S best => Answers S key version best)
      (fun r _ _ _ hbest => answers_considerRecord hbest r) hnone
  rwa [Set.empty_union] at hall

/-- Whether every record of one block stands before every record of another. -/
def BlockIndex.Before (b c : BlockIndex) : Prop := ∀ r ∈ b.block, ∀ s ∈ c.block, r.slot < s.slot

theorem answers_findSome {blocks : List BlockIndex} (h : blocks.Pairwise BlockIndex.Before) :
    Answers {r | ∃ b ∈ blocks, r ∈ b.block} key version
    (blocks.reverse.findSome? fun b => bestInBlock key version b.block) := by
  induction blocks using reverseRecOn with
  | nil => simp [Answers]
  | append_singleton blocks last ih =>
    obtain ⟨hblocks, -, hlast⟩ := pairwise_append.mp h
    have hsplit : ({r | ∃ b ∈ blocks ++ [last], r ∈ b.block} : Set Record) =
        {r | r ∈ last.block} ∪ {r | ∃ b ∈ blocks, r ∈ b.block} := by
      ext r
      simp [or_and_right, exists_or, or_comm]
    have hhere : Answers {r | r ∈ last.block} key version (bestInBlock key version last.block) :=
      answers_bestInBlock last.block
    rw [reverse_append, reverse_singleton, singleton_append, findSome?_cons, hsplit]
    cases hbest : bestInBlock key version last.block with
    | none =>
      rw [hbest] at hhere
      simpa [Mvcc.newer] using hhere.newer (ih hblocks)
    | some r =>
      rw [hbest] at hhere
      -- earlier blocks hold older versions of the key
      refine hhere.skip fun s hs hkey _ => ⟨r, rfl, ?_⟩
      obtain ⟨b, hb, hs⟩ := hs
      have hlt := hlast b hb last (by simp) s hs r hhere.mem
      exact (Mvcc.Record.version_lt hlt (hkey.trans hhere.key_eq.symm)).le

section

variable (h : Indexed index records)

include h

theorem Indexed.before (hord : Ordered Mvcc.Record.slot records) : index.Pairwise BlockIndex.Before := by
  rw [← h.flat] at hord
  exact (pairwise_flatMap.mp hord).2

theorem Indexed.firstKey_le (hord : Ordered Mvcc.Record.slot records) {c : BlockIndex} {rest : List BlockIndex}
    (hsub : (c :: rest).Sublist index) (hb : b ∈ c :: rest) (hr : r ∈ b.block) : c.firstKey ≤ r.key := by
  obtain ⟨first, others, hblock, hkey⟩ := h.headed c (hsub.subset mem_cons_self)
  rw [hkey]
  rcases mem_cons.mp hb with rfl | hb
  · rw [← h.flat] at hord
    have hsorted := (pairwise_flatMap.mp hord).1 b (hsub.subset mem_cons_self)
    rw [hblock] at hr hsorted
    rcases mem_cons.mp hr with rfl | hr
    · exact le_rfl
    · exact Mvcc.Record.key_le ((pairwise_cons.mp hsorted).1 r hr)
  · have hbefore := (pairwise_cons.mp ((h.before hord).sublist hsub)).1 b hb
    exact Mvcc.Record.key_le (hbefore first (by simp [hblock]) r hr)

theorem Indexed.front (hord : Ordered Mvcc.Record.slot records)
    (hb : b ∈ index.take (blocksForKey index key).1) (hr : r ∈ b.block) : r.key < key := by
  set below := index.takeWhile (fun b => decide (b.firstKey < key)) with hbelow
  have hsplit : below ++ index.dropWhile (fun b => decide (b.firstKey < key)) = index :=
    takeWhile_append_dropWhile
  have hfront : b ∈ below.dropLast := by
    rw [dropLast_eq_take, ← take_append_of_le_length (Nat.sub_le _ 1), hsplit]
    exact hb
  have hlast := dropLast_append_getLast (ne_nil_of_mem (dropLast_subset _ hfront))
  set last := below.getLast _
  have hmem : last ∈ below := getLast_mem _
  have hlt : last.firstKey < key := by
    simpa using all_eq_true.mp all_takeWhile last hmem
  have hbefore : b.Before last := by
    have hpair := h.before hord
    rw [← hsplit, ← hlast] at hpair
    exact (pairwise_append.mp (pairwise_append.mp hpair).1).2.2 b hfront last (by simp)
  have hindex : last ∈ index := (takeWhile_subset _) hmem
  obtain ⟨first, rest, hblock, hkey⟩ := h.headed last hindex
  have hle := Mvcc.Record.key_le (hbefore r hr first (by simp [hblock]))
  exact (hkey ▸ hle).trans_lt hlt

theorem Indexed.back (hord : Ordered Mvcc.Record.slot records)
    (hb : b ∈ index.drop (blocksForKey index key).2) (hr : r ∈ b.block) : key < r.key := by
  have hsplit : index.takeWhile (fun b => decide (b.firstKey ≤ key)) ++
      index.dropWhile (fun b => decide (b.firstKey ≤ key)) = index :=
    takeWhile_append_dropWhile
  have hdrop : index.drop (blocksForKey index key).2 =
    index.dropWhile (fun b => decide (b.firstKey ≤ key)) := by
    conv_lhs => rw [← hsplit]
    exact drop_left' (by rw [hsplit]; rfl)
  rw [hdrop] at hb
  cases hrest : index.dropWhile (fun b => decide (b.firstKey ≤ key)) with
  | nil => simp [hrest] at hb
  | cons c rest =>
    have hlt : key < c.firstKey := by
      have := head?_dropWhile_not (fun b : BlockIndex => decide (b.firstKey ≤ key)) index
      simpa [hrest] using this
    rw [hrest] at hb
    exact hlt.trans_le (h.firstKey_le hord (hrest ▸ dropWhile_sublist _) hb hr)

theorem Indexed.mem_iff : r ∈ records ↔ ∃ b ∈ index, r ∈ b.block := by
  rw [← h.flat, mem_flatMap]

theorem answers_recordsForKey (hord : Ordered Mvcc.Record.slot records) :
    Answers {r | r ∈ records} key version (recordsForKey index key version) := by
  unfold recordsForKey
  set first := (blocksForKey index key).1 with hfirst
  set last := (blocksForKey index key).2 with hlast
  have hsub : ((index.take last).drop first).Sublist index :=
    (drop_sublist _ _).trans (take_sublist _ _)
  have hfound : Answers {r | ∃ b ∈ (index.take last).drop first, r ∈ b.block} key version _ :=
    answers_findSome ((h.before hord).sublist hsub)
  refine hfound.cover (fun r hr => ?_) fun r hr hkey hle => ⟨r, ?_, hkey, hle, le_rfl⟩
  · obtain ⟨b, hb, hrb⟩ := (hfound.newest_of_mem hr).mem
    exact h.mem_iff.mpr ⟨b, hsub.subset hb, hrb⟩
  · -- a block outside the candidates holds nothing of the key
    obtain ⟨b, hb, hrb⟩ := h.mem_iff.mp hr
    rw [← take_append_drop last index, mem_append] at hb
    rcases hb with hb | hb
    · rw [← take_append_drop first (index.take last), mem_append] at hb
      rcases hb with hb | hb
      · rw [take_take] at hb
        have hfront := take_subset_take_left index (Nat.min_le_left first last) hb
        exact absurd hkey (h.front hord hfront hrb).ne
      · exact ⟨b, hb, hrb⟩
    · exact absurd hkey (h.back hord hb hrb).ne'

end

variable {start : Key} {stop : Option Key}

theorem winners_scanRow {S : Set Record} {rows : List Record}
    (h : Winners (InRange start stop) version S rows) (r : Record) :
    Winners (InRange start stop) version (S ∪ {r}) (scanRow start stop version rows r) := by
  unfold scanRow
  split_ifs with hr
  · exact h.upsert hr.1 hr.2 fun _ _ _ => rfl
  · refine h.skip fun s hs => ?_
    obtain rfl := Set.mem_singleton_iff.mp hs
    by_contra hboth
    simp only [not_or, not_not, not_lt] at hboth
    exact hr hboth

theorem winners_scanRows (start : Key) (stop : Option Key) (version : Version) (records : List Record) :
    Winners (InRange start stop) version {r | r ∈ records} (records.foldl (scanRow start stop version) []) := by
  have hall : Winners (InRange start stop) version (∅ ∪ {r | r ∈ records})
    (records.foldl (scanRow start stop version) []) :=
    Mvcc.foldl_gather (I := fun S rows => Winners (InRange start stop) version S rows)
      (fun r _ _ _ h => winners_scanRow h r) .nil
  rwa [Set.empty_union] at hall

/-- Everything from the first block at or behind the end is out of the range. -/
theorem Indexed.behind (h : Indexed index records) (hord : Ordered Mvcc.Record.slot records) {first : Nat}
    (hb : b ∈ (index.drop first).dropWhile fun b => stop.all fun e => b.firstKey < e)
    (hr : r ∈ b.block) : ¬ InRange start stop r.key := by
  cases hrest : (index.drop first).dropWhile fun b => stop.all fun e => b.firstKey < e with
  | nil => simp [hrest] at hb
  | cons c rest =>
    have hsub : (c :: rest).Sublist index := by
      rw [← hrest]
      exact (dropWhile_sublist _).trans (drop_sublist _ _)
    have hstop : (stop.all fun e => decide (c.firstKey < e)) = false := by
      have := head?_dropWhile_not (fun b : BlockIndex => stop.all fun e => b.firstKey < e) (index.drop first)
      simpa [hrest] using this
    obtain ⟨e, rfl⟩ : ∃ e, stop = some e := by
      cases stop with
      | none => simp at hstop
      | some e => exact ⟨e, rfl⟩
    have hle : e ≤ c.firstKey := by simpa using hstop
    rw [hrest] at hb
    intro hin
    exact absurd (hin.2 e rfl) (not_lt.mpr (hle.trans (h.firstKey_le hord hsub hb hr)))

theorem SsTable.winners_scanAt (t : SsTable) (start : Key) (stop : Option Key) (version : Version) :
    Winners (InRange start stop) version t.records.held (t.scanAt start stop version) := by
  have h := indexed_writeIndex t.records.records
  have hord := t.records.ordered
  unfold SsTable.scanAt
  set first := (blocksForKey t.index start).1 with hfirst
  set inside := (t.index.drop first).takeWhile fun b => stop.all fun e => b.firstKey < e with hinside
  have hrows := winners_scanRows start stop version (inside.flatMap (·.block))
  refine ⟨hrows.ordered, hrows.inside, fun key hin => (hrows.answers key hin).cover (fun r hr => ?_) ?_⟩
  · obtain ⟨b, hb, hrb⟩ := mem_flatMap.mp ((hrows.answers key hin).newest_of_mem hr).mem
    exact h.mem_iff.mpr ⟨b, drop_subset _ _ (takeWhile_subset _ hb), hrb⟩
  · rintro r hr rfl hle
    refine ⟨r, ?_, rfl, hle, le_rfl⟩
    obtain ⟨b, hb, hrb⟩ := h.mem_iff.mp hr
    rw [← take_append_drop first (writeIndex _), mem_append] at hb
    rcases hb with hb | hb
    · exact absurd (h.front hord hb hrb) (not_lt.mpr hin.1)
    · rw [← takeWhile_append_dropWhile (p := fun b : BlockIndex => stop.all fun e => b.firstKey < e)
        (l := drop first _), mem_append] at hb
      rcases hb with hb | hb
      · exact mem_flatMap.mpr ⟨b, hb, hrb⟩
      · exact absurd hin (h.behind hord hb hrb)

theorem SsTable.answers_getAt (t : SsTable) (key : Key) (version : Version) :
    Answers t.records.held key version (t.getAt key version) :=
  answers_recordsForKey (indexed_writeIndex _) t.records.ordered

theorem SsTable.fullScan_eq (t : SsTable) : t.fullScan = t.records.records :=
  (indexed_writeIndex _).flat

variable {t : SsTable}

theorem SsTable.minKey_le (hr : r ∈ t.records.records) :
    ∃ lo, (t.meta fmt).minKey = some lo ∧ lo ≤ r.key := by
  have hord := t.records.ordered
  unfold SsTable.meta
  cases hrecords : t.records.records with
  | nil => simp [hrecords] at hr
  | cons first rest =>
    refine ⟨first.key, rfl, ?_⟩
    rw [hrecords] at hr hord
    rcases mem_cons.mp hr with rfl | hr
    · exact le_rfl
    · exact Mvcc.Record.key_le ((pairwise_cons.mp hord).1 r hr)

theorem SsTable.le_maxKey (hr : r ∈ t.records.records) :
    ∃ hi, (t.meta fmt).maxKey = some hi ∧ r.key ≤ hi := by
  have hord := t.records.ordered
  have hlast := dropLast_append_getLast (ne_nil_of_mem hr)
  refine ⟨(t.records.records.getLast (ne_nil_of_mem hr)).key, ?_, ?_⟩
  · simp [SsTable.meta, getLast?_eq_some_getLast (ne_nil_of_mem hr)]
  · rw [← hlast] at hord
    have hmem := hr
    rw [← hlast, mem_append, mem_singleton] at hmem
    rcases hmem with hmem | heq
    · exact Mvcc.Record.key_le ((pairwise_append.mp hord).2.2 r hmem _ (mem_singleton_self _))
    · exact heq ▸ le_rfl

theorem SsTable.minVersion_le (hr : r ∈ t.records.records) : (t.meta fmt).minVersion ≤ r.version := by
  have hne : t.records.records.isEmpty = false := isEmpty_eq_false_iff.mpr (ne_nil_of_mem hr)
  simpa [SsTable.meta, hne] using OrderedList.foldl_min_le Mvcc.Record.version versionMax hr

theorem SsTable.le_maxVersion (hr : r ∈ t.records.records) : r.version ≤ (t.meta fmt).maxVersion := by
  have hne : t.records.records.isEmpty = false := isEmpty_eq_false_iff.mpr (ne_nil_of_mem hr)
  simpa [SsTable.meta, hne] using OrderedList.le_foldl_max Mvcc.Record.version 0 hr

theorem SsTable.mayContain_meta (hr : r ∈ t.records.records) : (t.meta fmt).mayContain r.key = true := by
  obtain ⟨lo, hlo, hle⟩ := t.minKey_le fmt hr
  obtain ⟨hi, hhi, hge⟩ := t.le_maxKey fmt hr
  have hbloom : (t.meta fmt).bloom.mayContain r.key = true :=
    BloomFilter.mayContain_build fmt (Mvcc.Store.mem_keys.mpr ⟨r, hr, rfl⟩)
  unfold SsTableMeta.mayContain
  simp [hlo, hhi, hbloom, hle, hge]

end AnimusDb.Lsm
