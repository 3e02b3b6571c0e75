import AnimusDb.TabletCommand

/-! The hybrid logical clock of a node and the cache of served read timestamps of a tablet. A clock hands out
timestamps above all it has handed out or been shown; the cache answers with a floor above every read it was
told of that touches a key. -/

open ByteCodec (Bytes)
open List

namespace AnimusDb.Tablet

variable {start st remote s t : HlcTimestamp} {v w : Nat}

theorem HlcTimestamp.lt_iff : s < t ↔ s.wallMs < t.wallMs ∨ s.wallMs = t.wallMs ∧ s.logical < t.logical :=
  Prod.Lex.toLex_lt_toLex

theorem pack_eq_some : pack t = some v ↔ (t.logical < 2 ^ logicalBits ∧ t.wallMs < 2 ^ (64 - logicalBits)) ∧
    t.wallMs * 2 ^ logicalBits + t.logical = v := by
  simp [pack]

theorem unpack_pack (h : pack t = some v) : unpack v = t := by
  obtain ⟨⟨hlogical, -⟩, rfl⟩ := pack_eq_some.mp h
  rw [unpack, Nat.mul_comm, Nat.mul_add_div (by decide), Nat.div_eq_of_lt hlogical, Nat.mul_add_mod,
    Nat.mod_eq_of_lt hlogical, Nat.add_zero]

theorem pack_lt_pack (hs : pack s = some v) (ht : pack t = some w) (hlt : s < t) : v < w := by
  rw [pack_eq_some] at hs ht
  rw [HlcTimestamp.lt_iff] at hlt
  simp only [logicalBits] at hs ht
  omega

/-- Nanoseconds to whole milliseconds. -/
def nowMs (now : UInt64) : Nat := now.toNat / 1000000

/-- A logical part that has left its field moves the wall part on. -/
def carryOverflow (wallMs logical : Nat) : HlcTimestamp :=
  if 2 ^ logicalBits ≤ logical then ⟨(wallMs + 1) % 2 ^ 64, 0⟩ else ⟨wallMs, logical⟩

/-- The next timestamp, which is also the clock's state after it. -/
def mint (st : HlcTimestamp) (now : UInt64) : HlcTimestamp :=
  let wall := max (nowMs now) st.wallMs
  carryOverflow wall (if wall = st.wallMs then (st.logical + 1) % 2 ^ 32 else 0)

/-- The timestamp after a remote one was shown. -/
def witness (st remote : HlcTimestamp) (now : UInt64) : HlcTimestamp :=
  let wall := max (max (nowMs now) st.wallMs) remote.wallMs
  carryOverflow wall (if wall = st.wallMs ∧
    wall = remote.wallMs then (max st.logical remote.logical + 1) % 2 ^ 32
    else if wall = st.wallMs then (st.logical + 1) % 2 ^ 32
    else if wall = remote.wallMs then (remote.logical + 1) % 2 ^ 32
    else 0)

/-- A timestamp just above another, with no clock involved. -/
def bumpStrictlyAbove (ts : HlcTimestamp) : HlcTimestamp :=
  let bumped := (ts.logical + 1) % 2 ^ 32
  if 2 ^ logicalBits ≤ bumped then ⟨(ts.wallMs + 1) % 2 ^ 64, 0⟩ else ⟨ts.wallMs, bumped⟩

/-- The greatest timestamp whose parts fill their fields: one more carries out of the wall part. -/
def lastTimestamp : HlcTimestamp := ⟨2 ^ 64 - 1, 2 ^ logicalBits - 1⟩

/-- The greatest timestamp that can be packed. -/
def lastPacked : HlcTimestamp := ⟨2 ^ (64 - logicalBits) - 1, 2 ^ logicalBits - 1⟩

theorem carryOverflow_logical (wall logical : Nat) :
    (carryOverflow wall logical).logical < 2 ^ logicalBits := by
  unfold carryOverflow
  split_ifs with h
  · exact Nat.two_pow_pos _
  · exact Nat.lt_of_not_le h

/-- What lies below the uncarried parts lies below them carried, unless the wall part wraps. -/
theorem lt_carryOverflow {wall logical : Nat} (hroom : wall + 1 < 2 ^ 64 ∨ logical < 2 ^ logicalBits) :
    t < ⟨wall, logical⟩ → t < carryOverflow wall logical := by
  simp only [carryOverflow, HlcTimestamp.lt_iff]
  split_ifs <;> dsimp only <;> omega

/-- A witness stands above the clock's state and above what it was shown. -/
theorem lt_witness (hst : st < lastTimestamp) (hremote : remote < lastTimestamp)
    (hlogical : st.logical + 1 < 2 ^ 32) (hlogical' : remote.logical + 1 < 2 ^ 32) (now : UInt64) :
      st < witness st remote now ∧ remote < witness st remote now := by
  have hmax : max st.logical remote.logical + 1 < 2 ^ 32 := by omega
  simp only [witness, Nat.mod_eq_of_lt hlogical, Nat.mod_eq_of_lt hlogical', Nat.mod_eq_of_lt hmax]
  rw [HlcTimestamp.lt_iff] at hst hremote
  simp only [lastTimestamp] at hst hremote
  -- the logical part counts on from whichever of the two has the greatest wall part
  split_ifs <;>
    refine ⟨lt_carryOverflow ?_ (HlcTimestamp.lt_iff.mpr ?_),
      lt_carryOverflow ?_ (HlcTimestamp.lt_iff.mpr ?_)⟩ <;>
    simp only [logicalBits] at * <;> omega

theorem mint_eq_witness (st : HlcTimestamp) (now : UInt64) : mint st now = witness st st now := by
  simp only [mint, witness, max_assoc, max_self, and_self]
  split_ifs <;> rfl

/-- The runs of a clock whose steps neither start from nor are shown a timestamp with nothing above it, with
all that was minted or witnessed. -/
inductive Ticks (start : HlcTimestamp) : List HlcTimestamp → HlcTimestamp → Prop
  | start : Ticks start [] start
  | mint {seen : List HlcTimestamp} {st : HlcTimestamp} (now : UInt64) :
      Ticks start seen st → st < lastTimestamp → Ticks start (mint st now :: seen) (mint st now)
  | witness {seen : List HlcTimestamp} {st : HlcTimestamp} (remote : HlcTimestamp) (now : UInt64) :
      Ticks start seen st → st < lastTimestamp → remote < lastTimestamp → remote.logical < 2 ^ logicalBits →
      Ticks start (witness st remote now :: remote :: seen) (witness st remote now)

theorem Ticks.ahead {seen : List HlcTimestamp} (h : Ticks start seen st)
    (hstart : start.logical + 1 < 2 ^ 32) : st.logical + 1 < 2 ^ 32 ∧ ∀ t ∈ seen, t ≤ st := by
  have hfield {n : Nat} : n < 2 ^ logicalBits → n + 1 < 2 ^ 32 := (lt_of_le_of_lt · (by decide))
  induction h with
  | start => exact ⟨hstart, by simp⟩
  | mint now _ hroom ih =>
    have habove := lt_witness hroom hroom ih.1 ih.1 now
    rw [← mint_eq_witness] at habove
    exact ⟨hfield (carryOverflow_logical _ _),
      forall_mem_cons.mpr ⟨le_rfl, fun t ht => (ih.2 t ht).trans habove.1.le⟩⟩
  | witness remote now _ hroom hremote hlogical ih =>
    have habove := lt_witness hroom hremote ih.1 (hfield hlogical) now
    exact ⟨hfield (carryOverflow_logical _ _), forall_mem_cons.mpr ⟨le_rfl, forall_mem_cons.mpr
      ⟨habove.2.le, fun t ht => (ih.2 t ht).trans habove.1.le⟩⟩⟩

theorem lt_bumpStrictlyAbove (hroom : t < lastTimestamp) (hlogical : t.logical + 1 < 2 ^ 32) :
    t < bumpStrictlyAbove t := by
  rw [HlcTimestamp.lt_iff] at hroom
  have hlt : t < carryOverflow t.wallMs (t.logical + 1) := by
    refine lt_carryOverflow ?_ (HlcTimestamp.lt_iff.mpr (.inr ⟨rfl, Nat.lt_succ_self _⟩))
    simp only [lastTimestamp, logicalBits] at *
    omega
  rwa [← Nat.mod_eq_of_lt hlogical] at hlt

theorem pack_bumpStrictlyAbove (h : pack t = some v) (hlast : t ≠ lastPacked) :
    ∃ w, pack (bumpStrictlyAbove t) = some w ∧ v < w := by
  obtain ⟨⟨hlogical, hwall⟩, -⟩ := pack_eq_some.mp h
  have habove : t < bumpStrictlyAbove t := lt_bumpStrictlyAbove
    (HlcTimestamp.lt_iff.mpr (.inl (hwall.trans (by decide)))) (lt_of_le_of_lt hlogical (by decide))
  have hwall' : (bumpStrictlyAbove t).wallMs < 2 ^ (64 - logicalBits) := by
    have hne : ¬(t.wallMs = 2 ^ (64 - logicalBits) - 1 ∧ t.logical = 2 ^ logicalBits - 1) := fun ⟨h₁, h₂⟩ =>
      hlast (by rw [lastPacked, ← h₁, ← h₂])
    simp only [bumpStrictlyAbove]
    split_ifs <;> simp only [logicalBits] at * <;> omega
  have hpack := pack_eq_some.mpr ⟨⟨carryOverflow_logical _ _, hwall'⟩, rfl⟩
  exact ⟨_, hpack, pack_lt_pack h hpack habove⟩

/-- In every such run each timestamp minted next is above all minted or witnessed before it, and its logical
part stays in its field. Timestamps within their fields are packed in their order and read back; the bump of
a timestamp is above it while there is one above it, and so is its packed form. -/
theorem clock_law (start : HlcTimestamp) (hstart : start.logical + 1 < 2 ^ 32) :
    (∀ seen st now, Ticks start seen st → st < lastTimestamp →
      (∀ t ∈ seen, t < mint st now) ∧ (mint st now).logical < 2 ^ logicalBits) ∧
    (∀ s t : HlcTimestamp, s.logical < 2 ^ logicalBits → t.logical < 2 ^ logicalBits →
      s.wallMs < 2 ^ (64 - logicalBits) → t.wallMs < 2 ^ (64 - logicalBits) →
      ∃ v w, pack s = some v ∧ pack t = some w ∧ unpack v = s ∧ (s < t → v < w)) ∧
    (∀ t : HlcTimestamp, t < lastTimestamp → t.logical + 1 < 2 ^ 32 → t < bumpStrictlyAbove t) ∧
    ∀ (t : HlcTimestamp) v, pack t = some v → t ≠ lastPacked → ∃ w, pack (bumpStrictlyAbove t) = some w ∧
      v < w := by
  refine ⟨fun seen st now hrun hroom => ?_, fun s t hs ht hs' ht' => ?_, fun t => lt_bumpStrictlyAbove,
    fun t v => pack_bumpStrictlyAbove⟩
  · obtain ⟨hlogical, hahead⟩ := hrun.ahead hstart
    have habove := lt_witness hroom hroom hlogical hlogical now
    rw [← mint_eq_witness] at habove
    exact ⟨fun t ht => lt_of_le_of_lt (hahead t ht) habove.1, carryOverflow_logical _ _⟩
  · have hpacks := pack_eq_some.mpr ⟨⟨hs, hs'⟩, rfl⟩
    have hpackt := pack_eq_some.mpr ⟨⟨ht, ht'⟩, rfl⟩
    exact ⟨_, _, hpacks, hpackt, unpack_pack hpacks, pack_lt_pack hpacks hpackt⟩

/-- After a remote timestamp ahead of the physical clock was shown, the next one minted is above it. -/
theorem clock_law_zero : (⟨7, 3⟩ : HlcTimestamp) < mint (witness .zero ⟨7, 3⟩ 0) 0 :=
  ((clock_law .zero (by decide)).1 _ _ 0 (.witness ⟨7, 3⟩ 0 .start (by decide) (by decide) (by decide))
    (by decide)).1 _ (by simp)

/-- The wall part wraps after the last timestamp, the logical part of a bump wraps, and the bump of the
greatest timestamp that can be packed cannot be. -/
theorem clock_wraps : lastTimestamp.logical < 2 ^ logicalBits ∧
    ¬lastTimestamp < mint (witness .zero lastTimestamp 0) 0 ∧
    ¬(⟨0, 2 ^ 32 - 1⟩ : HlcTimestamp) < bumpStrictlyAbove ⟨0, 2 ^ 32 - 1⟩ ∧
    pack lastPacked = some (2 ^ 64 - 1) ∧ pack (bumpStrictlyAbove lastPacked) = none := by decide

/-- A span of keys from its start up to its end, or unbounded above. -/
abbrev Span := Bytes × Option Bytes

/-- The span of one key, up to its immediate successor. -/
def pointSpan (key : Bytes) : Span := (key, some (key ++ [0]))

def spanContains (span : Span) (key : Bytes) : Bool :=
  decide (span.1 ≤ key) && match span.2 with
    | some e => decide (key < e)
    | none => true

abbrev Generation := List (Span × HlcTimestamp)

structure TsCache where
  current : Generation
  previous : Generation
  lowWater : HlcTimestamp

namespace TsCache

def rotationBound : Nat := 4096

def new : TsCache := ⟨[], [], .zero⟩

/-- The entry of the span is made if it is absent, and raised if it is lower. -/
def record (span : Span) (ts : HlcTimestamp) : Generation → Generation
  | [] => [(span, ts)]
  | e :: rest => if e.1 = span then (e.1, max e.2 ts) :: rest else e :: record span ts rest

/-- The generation that is dropped leaves its highest timestamp in the low water. -/
def rotate (c : TsCache) : TsCache where
  current := []
  previous := c.current
  lowWater := match (c.previous.map Prod.snd).max? with
    | some m => max c.lowWater m
    | none => c.lowWater

def bump (c : TsCache) (span : Span) (ts : HlcTimestamp) : TsCache :=
  let c := { c with current := record span ts c.current }
  if rotationBound < c.current.length then c.rotate else c

def maxOverlapping (c : TsCache) (keys : List Bytes) : HlcTimestamp :=
  keys.foldl (fun floor key => (c.current ++ c.previous).foldl
    (fun floor e => if spanContains e.1 key then max floor e.2 else floor) floor) c.lowWater

def raiseLowWater (c : TsCache) (ts : HlcTimestamp) : TsCache := { c with lowWater := max c.lowWater ts }

/-- The runs of a cache, with the reads recorded and, without a span, the low waters raised. -/
inductive Run : List (Option Span × HlcTimestamp) → TsCache → Prop
  | new : Run [] new
  | bump {told : List (Option Span × HlcTimestamp)} {c : TsCache} (span : Span) (ts : HlcTimestamp) :
      Run told c → Run ((some span, ts) :: told) (c.bump span ts)
  | raise {told : List (Option Span × HlcTimestamp)} {c : TsCache} (ts : HlcTimestamp) :
      Run told c → Run ((none, ts) :: told) (c.raiseLowWater ts)
  | rotate {told : List (Option Span × HlcTimestamp)} {c : TsCache} : Run told c → Run told c.rotate

/-- What the cache was told is still covered: by the low water, or by an entry of its own span. -/
def Covers (c : TsCache) (e : Option Span × HlcTimestamp) : Prop :=
  e.2 ≤ c.lowWater ∨ ∃ span t, e.1 = some span ∧ (span, t) ∈ c.current ++ c.previous ∧ e.2 ≤ t

variable {told : List (Option Span × HlcTimestamp)} {c : TsCache} {e : Option Span × HlcTimestamp}

/-- The generation that goes leaves its greatest timestamp behind. -/
theorem Covers.rotate (h : c.Covers e) : c.rotate.Covers e := by
  have hlow : c.lowWater ≤ c.rotate.lowWater := by
    simp only [TsCache.rotate]
    split
    exacts [le_max_left _ _, le_rfl]
  rcases h with h | ⟨span, t, he, ht, hle⟩
  · exact .inl (h.trans hlow)
  rcases mem_append.mp ht with ht | ht
  · exact .inr ⟨span, t, he, by simpa [TsCache.rotate] using ht, hle⟩
  have hmem : t ∈ c.previous.map Prod.snd := mem_map_of_mem ht
  obtain ⟨m, hm⟩ := Option.isSome_iff_exists.mp (isSome_max?_of_mem hmem)
  refine .inl (hle.trans ?_)
  simp only [TsCache.rotate, hm]
  exact ((max?_le_iff hm).mp le_rfl t hmem).trans (le_max_right _ _)

/-- Recording a read covers it, and every entry stays or rises. -/
theorem mem_record (span : Span) (ts : HlcTimestamp) {s : Span} {u : HlcTimestamp} (g : Generation)
    (h : (s, u) ∈ (span, ts) :: g) : ∃ t, (s, t) ∈ record span ts g ∧ u ≤ t := by
  induction g with
  | nil => exact ⟨u, h, le_rfl⟩
  | cons e g ih =>
    rw [record]
    simp only [mem_cons] at h ih
    split_ifs with hspan
    · subst hspan
      rcases h with heq | rfl | h
      · cases heq
        exact ⟨_, .head _, le_max_right _ _⟩
      · exact ⟨_, .head _, le_max_left _ _⟩
      · exact ⟨u, .tail _ h, le_rfl⟩
    · rcases h with h | rfl | h
      · exact (ih (.inl h)).imp fun t ht => ⟨.tail _ ht.1, ht.2⟩
      · exact ⟨u, .head _, le_rfl⟩
      · exact (ih (.inr h)).imp fun t ht => ⟨.tail _ ht.1, ht.2⟩

/-- A bump records its read in the current generation, whether or not that is rotated out at once. -/
theorem covers_bump (span : Span) (ts : HlcTimestamp) (h : e = (some span, ts) ∨ c.Covers e) :
    (c.bump span ts).Covers e := by
  have hcurrent : { c with current := record span ts c.current }.Covers e := by
    rcases h with rfl | h | ⟨s, u, he, hu, hle⟩
    · obtain ⟨t, ht, hle⟩ := mem_record span ts c.current (.head _)
      exact .inr ⟨span, t, rfl, mem_append_left _ ht, hle⟩
    · exact .inl h
    rcases mem_append.mp hu with hu | hu
    · obtain ⟨t, ht, hut⟩ := mem_record span ts c.current (.tail _ hu)
      exact .inr ⟨s, t, he, mem_append_left _ ht, hle.trans hut⟩
    · exact .inr ⟨s, u, he, mem_append_right _ hu, hle⟩
  simp only [bump]
  split_ifs
  exacts [hcurrent.rotate, hcurrent]

theorem Run.covers (h : Run told c) : ∀ e ∈ told, c.Covers e := by
  induction h with
  | new => simp
  | bump span ts _ ih => exact fun e he => covers_bump span ts ((mem_cons.mp he).imp_right (ih e))
  | raise ts _ ih =>
    exact forall_mem_cons.mpr ⟨.inl (le_max_right _ _), fun e he => (ih e he).imp_left (le_max_of_le_left ·)⟩
  | rotate _ ih => exact fun e he => (ih e he).rotate

/-- A fold whose steps only rise ends above its start and above what any one step reaches. -/
theorem le_foldl {α β : Type} [Preorder α] {f : α → β → α} {b : α} (hrise : ∀ a x, a ≤ f a x) (l : List β)
    (a : α) (h : b ≤ a ∨ ∃ x ∈ l, ∀ a, b ≤ f a x) : b ≤ l.foldl f a := by
  induction l generalizing a with
  | nil => simpa using h
  | cons y l ih =>
    refine ih (f a y) ?_
    rcases h with h | ⟨x, hx, h⟩
    · exact .inl (h.trans (hrise a y))
    · exact (mem_cons.mp hx).imp (fun hxy : x = y => hxy ▸ h a) fun hx => ⟨x, hx, h⟩

theorem Covers.le_maxOverlapping (h : c.Covers e) {keys : List Bytes}
    (hkeys : ∀ span, e.1 = some span → ∃ key ∈ keys, spanContains span key = true) :
    e.2 ≤ c.maxOverlapping keys := by
  have hrise : ∀ key (a : HlcTimestamp) (x : Span × HlcTimestamp),
      a ≤ if spanContains x.1 key then max a x.2 else a := fun key a x => by
    split_ifs
    exacts [le_max_left _ _, le_rfl]
  refine le_foldl (fun a key => le_foldl (hrise key) _ a (.inl le_rfl)) keys _ (h.imp_right ?_)
  rintro ⟨span, t, he, ht, hle⟩
  obtain ⟨key, hkey, hin⟩ := hkeys span he
  refine ⟨key, hkey, fun a => le_foldl (hrise key) _ a (.inr ⟨_, ht, fun a => ?_⟩)⟩
  rw [if_pos hin]
  exact hle.trans (le_max_right _ _)

theorem spanContains_pointSpan (key : Bytes) : spanContains (pointSpan key) key = true := by
  have hlt : key < key ++ [0] := by
    induction key with
    | nil => exact nil_lt_cons _ _
    | cons b key ih => exact cons_lt_cons_iff.mpr (.inr ⟨rfl, ih⟩)
  simp [spanContains, pointSpan, hlt]

/-- After every run and for all keys, the answer is at least every read recorded whose span contains one of
the keys, a point read of one of them included, and at least every low water raised. -/
theorem maxOverlapping_sound (h : Run told c) (keys : List Bytes) :
    (∀ span ts, (some span, ts) ∈ told → ∀ key ∈ keys, spanContains span key = true →
    ts ≤ c.maxOverlapping keys) ∧
    (∀ key ∈ keys, ∀ ts, (some (pointSpan key), ts) ∈ told → ts ≤ c.maxOverlapping keys) ∧
    ∀ ts, (none, ts) ∈ told → ts ≤ c.maxOverlapping keys := by
  have hspan : ∀ span ts, (some span, ts) ∈ told → ∀ key ∈ keys, spanContains span key = true →
      ts ≤ c.maxOverlapping keys := fun span ts hmem key hkey hin =>
    (h.covers _ hmem).le_maxOverlapping (by rintro _ ⟨⟩; exact ⟨key, hkey, hin⟩)
  exact ⟨hspan, fun key hkey ts hts => hspan _ ts hts key hkey (spanContains_pointSpan key),
    fun ts hts => (h.covers _ hts).le_maxOverlapping (by simp)⟩

/-- A read of the keys from `1` on is still covered after its generation was rotated out twice. -/
theorem maxOverlapping_sound_rotated :
    (⟨5, 0⟩ : HlcTimestamp) ≤ ((new.bump ([1], none) ⟨5, 0⟩).rotate.rotate).maxOverlapping [[2]] :=
  (maxOverlapping_sound (.rotate (.rotate (.bump ([1], none) ⟨5, 0⟩ .new))) [[2]]).1 _ _ (.head _) [2]
    (.head _) (by decide)

end TsCache

end AnimusDb.Tablet
