import AnimusDb.OrderedMaps
import Mathlib.Data.List.Dedup
import Mathlib.Data.Prod.Lex
import Mathlib.Data.Set.Insert

/-! Multi-version records: a key holds at most one slot at a version, an empty slot being a tombstone. What a
read of a set of records answers, and when one set may stand for another whose old versions it has
dropped. Behind it, records whose versions come in any order: the greatest stands. -/

open OrderedList (Ordered)
open List

namespace Mvcc

structure Record (κ α : Type) where
  key : κ
  version : Nat
  value : Option α
deriving DecidableEq

variable {κ α : Type} {rest : List (Record κ α)} {key : κ} {version : Nat}

/-- The newest record of `key` at or below `version`. -/
structure Newest (S : Set (Record κ α)) (key : κ) (version : Nat) (r : Record κ α) : Prop where
  mem : r ∈ S
  key_eq : r.key = key
  visible : r.version ≤ version
  newest : ∀ s ∈ S, s.key = key → s.version ≤ version → s.version ≤ r.version

/-- What a read of `key` as of `version` has to find in `S`. -/
def Answers (S : Set (Record κ α)) (key : κ) (version : Nat) : Option (Record κ α) → Prop
  | some r => Newest S key version r
  | none => ∀ s ∈ S, s.key = key → version < s.version

/-- One record for a key and a version. -/
def Functional (S : Set (Record κ α)) : Prop :=
  ∀ r ∈ S, ∀ s ∈ S, r.key = s.key → r.version = s.version → r = s

/-- Keep the better of two answers, the first on a tie. -/
def newer (best next : Option (Record κ α)) : Option (Record κ α) :=
  match best, next with
  | none, next => next
  | some b, none => some b
  | some b, some n => if b.version < n.version then some n else some b

variable {S T : Set (Record κ α)} {a b : Option (Record κ α)}

theorem Functional.subset (hT : Functional T) (h : S ⊆ T) : Functional S :=
  fun r hr s hs => hT r (h hr) s (h hs)

theorem Answers.unique (hS : Functional S) (ha : Answers S key version a) (hb : Answers S key version b) :
    a = b := by
  match a, b with
  | none, none => rfl
  | none, some s => exact absurd hb.visible (Nat.not_le.mpr (ha s hb.mem hb.key_eq))
  | some r, none => exact absurd ha.visible (Nat.not_le.mpr (hb r ha.mem ha.key_eq))
  | some r, some s =>
    have hle := hb.newest r ha.mem ha.key_eq ha.visible
    have hge := ha.newest s hb.mem hb.key_eq hb.visible
    rw [hS r ha.mem s hb.mem (ha.key_eq.trans hb.key_eq.symm) (Nat.le_antisymm hle hge)]

/-- An answer stands for every set that has it and holds nothing better than the first. -/
theorem Answers.cover (ha : Answers S key version a) (hmem : ∀ r ∈ a, r ∈ T)
    (hT : ∀ s ∈ T, s.key = key → s.version ≤ version → ∃ r ∈ S, r.key = key ∧ r.version ≤ version ∧
    s.version ≤ r.version) : Answers T key version a := by
  match a with
  | none =>
    intro s hs hkey
    by_contra hle
    obtain ⟨r, hr, hrkey, hvisible, -⟩ := hT s hs hkey (Nat.not_lt.mp hle)
    exact absurd hvisible (Nat.not_le.mpr (ha r hr hrkey))
  | some best =>
    refine ⟨hmem best rfl, ha.key_eq, ha.visible, fun s hs hkey hle => ?_⟩
    obtain ⟨r, hr, hrkey, hvisible, hbetter⟩ := hT s hs hkey hle
    exact hbetter.trans (ha.newest r hr hrkey hvisible)

theorem Answers.newest_of_mem (ha : Answers S key version a) {r : Record κ α} (hr : r ∈ a) :
    Newest S key version r := by
  cases hr
  exact ha

/-- A source that holds nothing better may be skipped. -/
theorem Answers.skip (ha : Answers S key version a)
    (hT : ∀ s ∈ T, s.key = key → s.version ≤ version → ∃ r ∈ a, s.version ≤ r.version) :
    Answers (S ∪ T) key version a := by
  refine ha.cover (fun r hr => .inl (ha.newest_of_mem hr).mem) ?_
  rintro s (hs | hs) hkey hle
  · exact ⟨s, hs, hkey, hle, le_rfl⟩
  · obtain ⟨r, hr, hbetter⟩ := hT s hs hkey hle
    have hnew := ha.newest_of_mem hr
    exact ⟨r, hnew.mem, hnew.key_eq, hnew.visible, hbetter⟩

theorem Answers.newer (ha : Answers S key version a) (hb : Answers T key version b) :
    Answers (S ∪ T) key version (newer a b) := by
  match a, b with
  | none, none =>
    intro s hs hkey
    exact hs.elim (ha s · hkey) (hb s · hkey)
  | none, some n =>
    rw [Set.union_comm]
    exact hb.skip fun s hs hkey hle => absurd hle (Nat.not_le.mpr (ha s hs hkey))
  | some r, none => exact ha.skip fun s hs hkey hle => absurd hle (Nat.not_le.mpr (hb s hs hkey))
  | some r, some n =>
    simp only [Mvcc.newer]
    split_ifs with hlt
    · rw [Set.union_comm]
      refine hb.skip fun s hs hkey hle => ⟨n, rfl, ?_⟩
      exact (ha.newest s hs hkey hle).trans hlt.le
    · refine ha.skip fun s hs hkey hle => ⟨r, rfl, ?_⟩
      exact (hb.newest s hs hkey hle).trans (Nat.not_lt.mp hlt)

/-- A loop over records that keeps `I` at each one has gathered them all. -/
theorem foldl_gather {σ : Type} {f : σ → Record κ α → σ} {I : Set (Record κ α) → σ → Prop}
    (hstep : ∀ r ∈ rest, ∀ S st, I S st → I (S ∪ {r}) (f st r)) {st : σ} (h : I S st) :
    I (S ∪ {r | r ∈ rest}) (rest.foldl f st) := by
  induction rest generalizing S st with
  | nil => simpa using h
  | cons r rest ih =>
    have hrest := ih (fun r hr => hstep r (mem_cons_of_mem _ hr)) (hstep r mem_cons_self S st h)
    have hset : (S ∪ {r} ∪ {x | x ∈ rest} : Set (Record κ α)) = S ∪ {x | x ∈ r :: rest} := by
      ext x
      simp only [Set.mem_union, Set.mem_singleton_iff, Set.mem_ofPred_eq, mem_cons, or_assoc]
    rwa [hset] at hrest

variable {r : Record κ α} {rs : List (Record κ α)} {horizon : Nat}

/-- `S` stands for `T` from `horizon` on: `S` lost nothing at or above the horizon, and of the versions
below it every key still has its newest, unless that is a tombstone with nothing of the key left below the
horizon. -/
structure Agrees (horizon : Nat) (S T : Set (Record κ α)) : Prop where
  sub : S ⊆ T
  recent : ∀ r ∈ T, horizon ≤ r.version → r ∈ S
  anchor : ∀ r ∈ T, r.version < horizon → (∀ s ∈ T, s.key = r.key → s.version < horizon →
      s.version ≤ r.version) → r ∈ S ∨ (r.value = none ∧ ∀ s ∈ S, s.key = r.key → horizon ≤ s.version)

theorem Agrees.refl (S : Set (Record κ α)) (horizon : Nat) : Agrees horizon S S :=
  ⟨subset_rfl, fun _ hr _ => hr, fun _ hr _ _ => .inl hr⟩

section

variable (h : Agrees horizon S T)

include h

theorem Agrees.mono {later : Nat} (hle : horizon ≤ later) : Agrees later S T := by
  refine ⟨h.sub, fun r hr hge => h.recent r hr (hle.trans hge), ?_⟩
  intro r hr hlt hnewest
  rcases Nat.lt_or_ge r.version horizon with hbelow | hge
  · rcases h.anchor r hr hbelow fun s hs hkey hs' => hnewest s hs hkey (hs'.trans_le hle) with
      hmem | ⟨htomb, hgone⟩
    · exact .inl hmem
    · refine .inr ⟨htomb, fun s hs hkey => ?_⟩
      -- a record between the two horizons would be newer than `r`
      by_contra hs'
      have hle' := hnewest s (h.sub hs) hkey (Nat.not_le.mp hs')
      have := hgone s hs hkey
      omega
  · exact .inl (h.recent r hr hge)

/-- With everything below the horizon in view both show the same values. -/
theorem Agrees.live_eq (hT : Functional T) (hv : horizon ≤ version + 1) {a b : Option (Record κ α)}
    (ha : Answers S key version a)
    (hb : Answers T key version b) : a.filter (·.value.isSome) = b.filter (·.value.isSome) := by
  match b with
  | none =>
    have hnone : Answers S key version none := fun s hs hkey => hb s (h.sub hs) hkey
    rw [ha.unique (hT.subset h.sub) hnone]
  | some r =>
    have hkeep : r ∈ S → a = some r := by
      intro hr
      refine ha.unique (hT.subset h.sub) (b := some r) ⟨hr, hb.key_eq, hb.visible, ?_⟩
      exact fun s hs => hb.newest s (h.sub hs)
    rcases Nat.lt_or_ge r.version horizon with hlt | hge
    · rcases h.anchor r hb.mem hlt fun s hs hkey hs' =>
        hb.newest s hs (hkey.trans hb.key_eq) (Nat.le_of_lt_succ (hs'.trans_le hv)) with
        hr | ⟨htomb, hgone⟩
      · rw [hkeep hr]
      · have hnone : Answers S key version none := by
          intro s hs hkey
          by_contra hle
          have := hgone s hs (hkey.trans hb.key_eq.symm)
          have := hb.newest s (h.sub hs) hkey (Nat.not_lt.mp hle)
          omega
        rw [ha.unique (hT.subset h.sub) hnone]
        simp [Option.filter, htomb]
    · rw [hkeep (h.recent r hb.mem hge)]

/-- Whether a key holds a version at or above one that is not below the horizon. -/
theorem Agrees.holds_iff (hv : horizon ≤ version) :
    (∃ r ∈ S, r.key = key ∧ version ≤ r.version) ↔ ∃ r ∈ T, r.key = key ∧ version ≤ r.version := by
  constructor
  · rintro ⟨r, hr, hkey, hle⟩
    exact ⟨r, h.sub hr, hkey, hle⟩
  · rintro ⟨r, hr, hkey, hle⟩
    exact ⟨r, h.recent r hr (hv.trans hle), hkey, hle⟩

/-- Dropping records below the horizon: the newest of a key may go only as a tombstone, and only with all
that the key has below the horizon. -/
theorem Agrees.reclaim {S' : Set (Record κ α)} (hsub : S' ⊆ S) (hrecent : ∀ r ∈ S, horizon ≤ r.version → r ∈ S')
    (hdrop : ∀ r ∈ S, r ∉ S' → r.version < horizon →
      (∀ s ∈ S, s.key = r.key → s.version < horizon → s.version ≤ r.version) →
        r.value = none ∧ ∀ s ∈ S', s.key = r.key → horizon ≤ s.version) : Agrees horizon S' T := by
  refine ⟨hsub.trans h.sub, fun r hr hge => hrecent r (h.recent r hr hge) hge, ?_⟩
  intro r hr hlt hnewest
  by_cases hr' : r ∈ S'
  · exact .inl hr'
  · rcases h.anchor r hr hlt hnewest with hmem | ⟨htomb, hgone⟩
    · exact .inr (hdrop r hmem hr' hlt fun s hs => hnewest s (h.sub hs))
    · exact .inr ⟨htomb, fun s hs => hgone s (hsub hs)⟩

end

def write (r : Record κ α) (S : Set (Record κ α)) : Set (Record κ α) :=
  {s | s = r ∨ (s ∈ S ∧ ¬ (s.key = r.key ∧ s.version = r.version))}

/-- After writing the newest record of its key, the versions a key reaches. -/
theorem reaches_write (hnewest : ∀ s ∈ S, s.key = r.key → s.version < r.version) :
    (∃ s ∈ write r S, s.key = key ∧ version ≤ s.version) ↔
      (key = r.key ∧ version ≤ r.version) ∨ ∃ s ∈ S, s.key = key ∧ version ≤ s.version := by
  constructor
  · rintro ⟨s, rfl | ⟨hs, -⟩, rfl, hle⟩
    · exact .inl ⟨rfl, hle⟩
    · exact .inr ⟨s, hs, rfl, hle⟩
  · rintro (⟨rfl, hle⟩ | ⟨s, hs, rfl, hle⟩)
    · exact ⟨r, .inl rfl, rfl, hle⟩
    · exact ⟨s, .inr ⟨hs, fun hslot => (hnewest s hs hslot.1).ne hslot.2⟩, rfl, hle⟩

theorem Agrees.write (h : Agrees horizon S T) (hr : horizon ≤ r.version) :
    Agrees horizon (write r S) (write r T) := by
  refine ⟨?_, ?_, ?_⟩
  · rintro x (rfl | ⟨hx, hne⟩)
    · exact .inl rfl
    · exact .inr ⟨h.sub hx, hne⟩
  · rintro x (rfl | ⟨hx, hne⟩) hge
    · exact .inl rfl
    · exact .inr ⟨h.recent x hx hge, hne⟩
  · -- below the horizon neither side changes
    rintro x (rfl | ⟨hx, hne⟩) hlt hnewest
    · omega
    · have hother : ∀ s : Record κ α, s.version < horizon → ¬ (s.key = r.key ∧ s.version = r.version) :=
        fun s hs hsr => by omega
      rcases h.anchor x hx hlt fun s hs hkey hs' =>
        hnewest s (.inr ⟨hs, hother s hs'⟩) hkey hs' with hmem | ⟨htomb, hgone⟩
      · exact .inl (.inr ⟨hmem, hne⟩)
      · refine .inr ⟨htomb, ?_⟩
        rintro s (rfl | ⟨hs, -⟩) hkey
        · exact hr
        · exact hgone s hs hkey

def writes (rs : List (Record κ α)) (S : Set (Record κ α)) : Set (Record κ α) :=
  rs.foldl (fun S r => write r S) S

theorem writes_append (rs others : List (Record κ α)) (S : Set (Record κ α)) :
    writes (rs ++ others) S = writes others (writes rs S) := foldl_append

theorem mem_of_mem_writes {x : Record κ α} (hx : x ∈ writes rs S) : x ∈ S ∨ x ∈ rs := by
  induction rs generalizing S with
  | nil => exact .inl hx
  | cons r rs ih =>
    rcases ih hx with (rfl | ⟨hx, -⟩) | hx
    · exact .inr mem_cons_self
    · exact .inl hx
    · exact .inr (mem_cons_of_mem r hx)

theorem writes_union (hfree : ∀ r ∈ rs, ∀ t ∈ T, t.key = r.key → t.version ≠ r.version) :
    writes rs (S ∪ T) = writes rs S ∪ T := by
  induction rs generalizing S with
  | nil => rfl
  | cons r rs ih =>
    have hone : write r (S ∪ T) = write r S ∪ T := by
      ext x
      constructor
      · rintro (rfl | ⟨hx | hx, hne⟩)
        · exact .inl (.inl rfl)
        · exact .inl (.inr ⟨hx, hne⟩)
        · exact .inr hx
      · rintro ((rfl | ⟨hx, hne⟩) | hx)
        · exact .inl rfl
        · exact .inr ⟨.inl hx, hne⟩
        · exact .inr ⟨.inr hx, fun h => hfree r mem_cons_self x hx h.1 h.2⟩
    exact (congrArg (writes rs) hone).trans (ih fun r hr => hfree r (mem_cons_of_mem _ hr))

theorem Agrees.writes (h : Agrees horizon S T)
    (hrs : ∀ r ∈ rs, horizon ≤ r.version) : Agrees horizon (writes rs S) (writes rs T) := by
  induction rs generalizing S T with
  | nil => exact h
  | cons r rs ih =>
    exact ih (h.write (hrs r mem_cons_self)) fun r hr => hrs r (mem_cons_of_mem _ hr)

theorem mem_writes_tombstones {keys : List κ} {x : Record κ α} :
    x ∈ writes (keys.map fun key => ⟨key, version, none⟩) S ↔
      (x.key ∈ keys ∧ x.version = version ∧ x.value = none) ∨
      (x ∈ S ∧ ¬ (x.key ∈ keys ∧ x.version = version)) := by
  induction keys generalizing S with
  | nil => simp [writes]
  | cons key keys ih =>
    refine (ih (S := write ⟨key, version, none⟩ S)).trans ?_
    have hwrite : x ∈ write ⟨key, version, none⟩ S ↔
        (x.key = key ∧ x.version = version ∧ x.value = none) ∨
        (x ∈ S ∧ ¬ (x.key = key ∧ x.version = version)) := by
      obtain ⟨k, v, value⟩ := x
      simp [write]
    rw [hwrite, mem_cons]
    tauto

theorem Functional.writes (hS : Functional S) (rs : List (Record κ α)) : Functional (writes rs S) := by
  induction rs generalizing S with
  | nil => exact hS
  | cons r rs ih =>
    refine ih ?_
    rintro a (rfl | ⟨ha, hother⟩) b (rfl | ⟨hb, hother'⟩) hkey hversion
    · rfl
    · exact absurd ⟨hkey.symm, hversion.symm⟩ hother'
    · exact absurd ⟨hkey, hversion⟩ hother
    · exact hS a ha b hb hkey hversion

/-- Deleting keys that have their tombstone already changes nothing. -/
theorem writes_tombstones_congr (hS : Functional S) {keys more : List κ} (hsub : ∀ key ∈ keys, key ∈ more)
    (hrest : ∀ key ∈ more, key ∈ keys ∨ (⟨key, version, none⟩ : Record κ α) ∈ S) :
    writes (more.map fun key => (⟨key, version, none⟩ : Record κ α)) S =
      writes (keys.map fun key => ⟨key, version, none⟩) S := by
  ext x
  rw [mem_writes_tombstones, mem_writes_tombstones]
  constructor
  · rintro (⟨hkey, rfl, hvalue⟩ | ⟨hx, hother⟩)
    · by_cases hin : x.key ∈ keys
      · exact .inl ⟨hin, rfl, hvalue⟩
      · have htomb := (hrest x.key hkey).resolve_left hin
        rw [← hvalue] at htomb
        exact .inr ⟨htomb, fun h => hin h.1⟩
    · exact .inr ⟨hx, fun h => hother ⟨hsub _ h.1, h.2⟩⟩
  · rintro (⟨hkey, hversion, hvalue⟩ | ⟨hx, hother⟩)
    · exact .inl ⟨hsub _ hkey, hversion, hvalue⟩
    · by_cases hin : x.key ∈ more ∧ x.version = version
      · obtain ⟨hkey, hversion⟩ := hin
        have htomb := (hrest x.key hkey).resolve_left fun h => hother ⟨h, hversion⟩
        have heq := hS x hx _ htomb rfl hversion
        exact .inl ⟨hkey, hversion, by rw [heq]⟩
      · exact .inr ⟨hx, hin⟩

/-- Where a record stands in a sorted run: by key, then by version. -/
def Record.slot (r : Record κ α) : κ ×ₗ Nat := toLex (r.key, r.version)

theorem Record.slot_eq {s : Record κ α} : r.slot = s.slot ↔ r.key = s.key ∧ r.version = s.version := by
  simp [Record.slot]

variable [LinearOrder κ]

theorem Record.slot_lt {s : Record κ α} :
    r.slot < s.slot ↔ r.key < s.key ∨ (r.key = s.key ∧ r.version < s.version) := by
  simp [Record.slot, Prod.Lex.toLex_lt_toLex]

theorem Record.key_le {s : Record κ α} (h : r.slot < s.slot) : r.key ≤ s.key :=
  (Record.slot_lt.mp h).elim le_of_lt fun heq => heq.1.le

theorem Record.version_lt {s : Record κ α} (h : r.slot < s.slot) (hkey : r.key = s.key) :
    r.version < s.version :=
  (Record.slot_lt.mp h).elim (fun hlt => absurd hkey hlt.ne) And.right

/-- Every version of every key, by key and then by version. -/
structure Store (κ α : Type) [LinearOrder κ] where
  records : List (Record κ α)
  ordered : Ordered Record.slot records

namespace Store

variable (s : Store κ α)

def empty : Store κ α := ⟨[], .nil⟩

def held : Set (Record κ α) := {r | r ∈ s.records}

def insert (r : Record κ α) : Store κ α :=
  ⟨OrderedList.insert Record.slot r s.records, s.ordered.insert r⟩

def filter (p : Record κ α → Bool) : Store κ α := ⟨s.records.filter p, s.ordered.filter p⟩

/-- The newest record of a key at or below a version. -/
def newestAt (key : κ) (version : Nat) : Option (Record κ α) :=
  (s.records.filter fun r => r.key = key ∧ r.version ≤ version).getLast?

def keys : List κ := (s.records.map Record.key).dedup

variable {s}

@[simp] theorem mem_held : r ∈ s.held ↔ r ∈ s.records := Iff.rfl

@[ext] theorem ext {s t : Store κ α} (h : ∀ r, r ∈ s.records ↔ r ∈ t.records) : s = t := by
  obtain ⟨records, ordered⟩ := s
  obtain ⟨others, ordered'⟩ := t
  obtain rfl := ordered.ext ordered' h
  rfl

@[simp] theorem held_empty : (empty : Store κ α).held = ∅ := by
  simp [held, empty]

theorem held_insert (r : Record κ α) : (s.insert r).held = write r s.held := by
  ext x
  simp only [mem_held, Store.insert, OrderedList.mem_insert s.ordered, write, Set.mem_ofPred_eq, ne_eq,
    Record.slot_eq]

theorem held_foldl_writes (rs : List (Record κ α)) (s : Store κ α) :
    (rs.foldl Store.insert s).held = writes rs s.held := by
  induction rs generalizing s with
  | nil => rfl
  | cons r rs ih => exact (ih (s.insert r)).trans (congrArg (writes rs) (held_insert r))

/-- Records that do not contradict each other are gathered. -/
theorem held_foldl_insert {T : Set (Record κ α)} (hT : Functional T) (hs : s.held ⊆ T)
    (hrest : ∀ r ∈ rest, r ∈ T) : (rest.foldl Store.insert s).held = s.held ∪ {r | r ∈ rest} := by
  refine (foldl_gather (I := fun S (st : Store κ α) => S ⊆ T ∧ st.held = S) ?_ ⟨hs, rfl⟩).2
  rintro r hr S st ⟨hS, rfl⟩
  refine ⟨Set.union_subset hS (Set.singleton_subset_iff.mpr (hrest r hr)), ?_⟩
  rw [held_insert]
  ext x
  simp only [write, Set.mem_ofPred_eq, Set.mem_union, Set.mem_singleton_iff]
  constructor
  · rintro (rfl | ⟨hx, -⟩)
    · exact .inr rfl
    · exact .inl hx
  · rintro (hx | rfl)
    · by_cases hslot : x.key = r.key ∧ x.version = r.version
      · exact .inl (hT x (hS hx) r (hrest r hr) hslot.1 hslot.2)
      · exact .inr ⟨hx, hslot⟩
    · exact .inl rfl

theorem functional_held (s : Store κ α) : Functional s.held := by
  intro r hr t ht hkey hversion
  exact s.ordered.eq_of_key hr ht (Record.slot_eq.mpr ⟨hkey, hversion⟩)

theorem answers_newestAt (s : Store κ α) (key : κ) (version : Nat) :
    Answers s.held key version (s.newestAt key version) := by
  unfold newestAt
  set found := s.records.filter fun r => r.key = key ∧ r.version ≤ version with hfound
  have hmem : ∀ r, r ∈ found ↔ r ∈ s.records ∧ r.key = key ∧ r.version ≤ version := by
    simp [hfound]
  have hordered : Ordered Record.slot found := s.ordered.filter _
  cases hlast : found.getLast? with
  | none =>
    intro r hr hkey
    rw [getLast?_eq_none_iff] at hlast
    by_contra hle
    have := (hmem r).mpr ⟨hr, hkey, Nat.not_lt.mp hle⟩
    simp [hlast] at this
  | some r =>
    obtain ⟨before, hsplit⟩ := getLast?_eq_some_iff.mp hlast
    have hr := (hmem r).mp (by simp [hsplit])
    refine ⟨hr.1, hr.2.1, hr.2.2, ?_⟩
    intro t ht hkey hle
    have htmem := (hmem t).mpr ⟨ht, hkey, hle⟩
    rw [hsplit, mem_append, mem_singleton] at htmem
    rcases htmem with hbefore | rfl
    · rw [hsplit] at hordered
      have hlt := (pairwise_append.mp hordered).2.2 t hbefore r (by simp)
      exact (Record.version_lt hlt (hkey.trans hr.2.1.symm)).le
    · exact le_rfl

theorem mem_keys : key ∈ s.keys ↔ ∃ r ∈ s.records, r.key = key := by
  simp [keys]

theorem sortedLT_keys (s : Store κ α) : s.keys.Pairwise (· < ·) := by
  have hle : (s.records.map Record.key).Pairwise (· ≤ ·) := by
    rw [pairwise_map]
    exact s.ordered.imp Record.key_le
  have hsub := hle.sublist (dedup_sublist _)
  have hnodup : s.keys.Nodup := nodup_dedup _
  exact (hsub.and hnodup).imp fun ⟨hle, hne⟩ => lt_of_le_of_ne hle hne

end Store

/-- The newest record as of `version` of every key that `P` selects, by key. -/
structure Winners (P : κ → Prop) (version : Nat) (S : Set (Record κ α)) (rows : List (Record κ α)) :
    Prop where
  ordered : Ordered Record.key rows
  inside : ∀ r ∈ rows, P r.key
  answers : ∀ key, P key → Answers S key version (OrderedList.lookup Record.key key rows)

variable {P : κ → Prop}

namespace Winners

variable {rows merged : List (Record κ α)}

theorem nil : Winners P version (∅ : Set (Record κ α)) [] :=
  ⟨.nil, by simp, fun _ _ s hs => absurd hs (Set.notMem_empty s)⟩

section

variable (h : Winners P version S rows)

include h

theorem newest (hr : r ∈ rows) : Newest S r.key version r := by
  have hans := h.answers r.key (h.inside r hr)
  rwa [(OrderedList.lookup_eq_some h.ordered).mpr ⟨hr, rfl⟩] at hans

theorem mem_iff (hS : Functional S) : r ∈ rows ↔ P r.key ∧ Newest S r.key version r := by
  refine ⟨fun hr => ⟨h.inside r hr, h.newest hr⟩, ?_⟩
  rintro ⟨hP, hnew⟩
  have heq := (h.answers r.key hP).unique hS (b := some r) hnew
  exact ((OrderedList.lookup_eq_some h.ordered).mp heq).1

/-- Records out of the range or above the version change nothing. -/
theorem skip (hT : ∀ r ∈ T, ¬ P r.key ∨ version < r.version) : Winners P version (S ∪ T) rows := by
  refine ⟨h.ordered, h.inside, fun key hP => (h.answers key hP).skip ?_⟩
  rintro s hs rfl hle
  rcases hT s hs with hr | hr
  · exact absurd hP hr
  · omega

/-- One more record in the range: the newer of it and what stood under its key stays. -/
theorem upsert (hP : P r.key) (hv : r.version ≤ version) {pick : Record κ α → Record κ α → Record κ α}
    (hpick : ∀ old ∈ rows, old.key = r.key → pick old r = if old.version < r.version then r else old) :
    Winners P version (S ∪ {r}) (OrderedList.upsert Record.key pick r rows) := by
  have hkept : ∀ old ∈ rows, old.key = r.key → (pick old r).key = r.key := by
    intro old hold hkey
    rw [hpick old hold hkey]
    split_ifs
    · rfl
    · exact hkey
  have hself : Answers {r} r.key version (some r) :=
    ⟨rfl, rfl, hv, fun s hs _ _ => by rw [Set.mem_singleton_iff.mp hs]⟩
  refine ⟨h.ordered.upsert hkept, ?_, ?_⟩
  · intro x hx
    rcases (OrderedList.mem_upsert h.ordered).mp hx with ⟨hx, -⟩ | rfl
    · exact h.inside x hx
    · rwa [OrderedList.key_picked h.ordered hkept]
  · intro key hkeyP
    rw [OrderedList.lookup_upsert h.ordered hkept]
    split_ifs with hkey
    · subst hkey
      have hboth := (h.answers r.key hkeyP).newer hself
      cases hfound : OrderedList.lookup Record.key r.key rows with
      | none =>
        rw [hfound] at hboth
        exact hboth
      | some old =>
        obtain ⟨hold, hkey⟩ := (OrderedList.lookup_eq_some h.ordered).mp hfound
        rw [hfound] at hboth
        rw [Option.elim_some, hpick old hold hkey]
        simp only [newer] at hboth
        split_ifs at hboth ⊢ <;> exact hboth
    · refine (h.answers key hkeyP).skip ?_
      rintro s rfl hkey'
      exact absurd hkey'.symm hkey

end

/-- Rows that already answer for a source stand for all of it. -/
theorem of_rows (h : Winners P version (S ∪ {r | r ∈ rows}) merged) (hrows : Winners P version T rows) :
    Winners P version (S ∪ T) merged := by
  refine ⟨h.ordered, h.inside, fun key hP => (h.answers key hP).cover (fun r hr => ?_) ?_⟩
  · rcases ((h.answers key hP).newest_of_mem hr).mem with hmem | hmem
    · exact .inl hmem
    · exact .inr (hrows.newest hmem).mem
  · rintro s (hs | hs) hkey hle
    · exact ⟨s, .inl hs, hkey, hle, le_rfl⟩
    · have hrow := hrows.answers key hP
      cases hfound : OrderedList.lookup Record.key key rows with
      | none =>
        rw [hfound] at hrow
        exact absurd hle (Nat.not_le.mpr (hrow s hs hkey))
      | some t =>
        rw [hfound] at hrow
        have hmem := (OrderedList.lookup_eq_some hrows.ordered).mp hfound
        exact ⟨t, .inr hmem.1, hrow.key_eq, hrow.visible, hrow.newest s hs hkey hle⟩

theorem mem_filter_iff (h : Winners P version S rows) {p : Record κ α → Bool} :
    r ∈ rows.filter p ↔ P r.key ∧ (OrderedList.lookup Record.key r.key rows).filter p = some r := by
  rw [mem_filter, Option.filter_eq_some_iff, OrderedList.lookup_eq_some h.ordered]
  constructor
  · rintro ⟨hr, hp⟩
    exact ⟨h.inside r hr, ⟨hr, rfl⟩, hp⟩
  · rintro ⟨-, ⟨hr, -⟩, hp⟩
    exact ⟨hr, hp⟩

end Winners

/-- The newest record of each key a predicate selects. -/
def Store.newestRows (s : Store κ α) (P : κ → Prop) [DecidablePred P] (version : Nat) : List (Record κ α) :=
  (s.keys.filter fun k => P k).filterMap fun k => s.newestAt k version

theorem Store.newestAt_key {s : Store κ α} (h : s.newestAt key version = some r) : r.key = key := by
  have hans := s.answers_newestAt key version
  rw [h] at hans
  exact hans.key_eq

theorem Store.winners_newestRows (s : Store κ α) (P : κ → Prop) [DecidablePred P] (version : Nat) :
    Winners P version s.held (s.newestRows P version) := by
  have hmem : ∀ r, r ∈ s.newestRows P version ↔ ∃ k ∈ s.keys, P k ∧ s.newestAt k version = some r := by
    intro r
    simp [newestRows, and_assoc]
  have hordered : Ordered Record.key (s.newestRows P version) := by
    unfold newestRows Ordered
    rw [pairwise_filterMap]
    refine (s.sortedLT_keys.sublist filter_sublist).imp fun {a b} hlt r hr r' hr' => ?_
    rw [newestAt_key hr, newestAt_key hr']
    exact hlt
  refine ⟨hordered, ?_, ?_⟩
  · intro r hr
    obtain ⟨k, -, hP, hk⟩ := (hmem r).mp hr
    rw [newestAt_key hk]
    exact hP
  · intro key hP
    have hans := s.answers_newestAt key version
    cases hnew : s.newestAt key version with
    | none =>
      have hnone : OrderedList.lookup Record.key key (s.newestRows P version) = none := by
        rw [OrderedList.lookup_eq_none]
        intro r hr hkey
        obtain ⟨k, -, -, hk⟩ := (hmem r).mp hr
        rw [← newestAt_key hk, hkey, hnew] at hk
        cases hk
      rw [hnone, ← hnew]
      exact hans
    | some r =>
      rw [hnew] at hans
      have hkey : r.key = key := newestAt_key hnew
      have hr : r ∈ s.newestRows P version :=
        (hmem r).mpr ⟨key, mem_keys.mpr ⟨r, hans.mem, hkey⟩, hP, hnew⟩
      rw [(OrderedList.lookup_eq_some hordered).mpr ⟨hr, hkey⟩]
      exact hans

variable {rows others : List (Record κ α)}

/-- With everything below the horizon in view both show the same live rows. -/
theorem Agrees.live_rows (h : Agrees horizon S T) (hT : Functional T) (hv : horizon ≤ version + 1)
    (hrows : Winners P version S rows) (hothers : Winners P version T others) :
    rows.filter (·.value.isSome) = others.filter (·.value.isSome) := by
  refine (hrows.ordered.filter _).ext (hothers.ordered.filter _) fun r => ?_
  rw [hrows.mem_filter_iff, hothers.mem_filter_iff]
  refine and_congr_right fun hP => ?_
  rw [h.live_eq hT hv (hrows.answers r.key hP) (hothers.answers r.key hP)]

/-- Of the tombstones they show the same at or above the horizon. -/
theorem Agrees.kept_rows (h : Agrees horizon S T) (hT : Functional T) (hv : horizon ≤ version + 1)
    (hrows : Winners P version S rows) (hothers : Winners P version T others) :
    rows.filter (fun r => r.value.isSome || decide (horizon ≤ r.version)) =
      others.filter fun r => r.value.isSome || decide (horizon ≤ r.version) := by
  have hlive := h.live_rows hT hv hrows hothers
  refine (hrows.ordered.filter _).ext (hothers.ordered.filter _) fun r => ?_
  simp only [mem_filter, Bool.or_eq_true, decide_eq_true_eq, and_or_left]
  have hleft : (r ∈ rows ∧ r.value.isSome = true) ↔ (r ∈ others ∧ r.value.isSome = true) := by
    rw [← mem_filter (p := fun r : Record κ α => r.value.isSome), hlive, mem_filter]
  refine or_congr hleft (and_congr_left fun hge => ?_)
  rw [hrows.mem_iff (hT.subset h.sub), hothers.mem_iff hT]
  refine and_congr_right fun _ => ?_
  constructor
  · intro hnew
    refine ⟨h.sub hnew.mem, rfl, hnew.visible, fun s hs hkey hle => ?_⟩
    by_cases hs' : horizon ≤ s.version
    · exact hnew.newest s (h.recent s hs hs') hkey hle
    · omega
  · intro hnew
    exact ⟨h.recent r hnew.mem hge, rfl, hnew.visible, fun s hs => hnew.newest s (h.sub hs)⟩

end Mvcc

namespace LastWriter

variable {R K V : Type} [LinearOrder V] (key : R → K) (ver : R → V)

/-- The record that stands at a key, if any came in for it. -/
def Wins (held : List R) (k : K) : Option R → Prop
  | none => ∀ x ∈ held, key x ≠ k
  | some r => r ∈ held ∧ key r = k ∧ ∀ x ∈ held, key x = k → ver x ≤ ver r

variable {key ver} {held held' : List R} {k : K} {w w' : Option R} {r x : R}

theorem wins_nil : Wins key ver [] k none := fun _ hx => absurd hx not_mem_nil

theorem Wins.below (h : Wins key ver held k w) (hx : x ∈ held) (hkey : key x = k) :
    ∃ r, w = some r ∧ ver x ≤ ver r := by
  cases w with
  | none => exact absurd hkey (h x hx)
  | some r => exact ⟨r, rfl, h.2.2 x hx hkey⟩

theorem Wins.other (h : Wins key ver held k w) (hkey : key x ≠ k) : Wins key ver (held ++ [x]) k w := by
  have hold : ∀ y ∈ held ++ [x], key y = k → y ∈ held := by
    intro y hy hyk
    rcases mem_append.mp hy with hy | hy
    · exact hy
    · exact absurd (mem_singleton.mp hy ▸ hyk) hkey
  cases w with
  | none => exact fun y hy hyk => h y (hold y hy hyk) hyk
  | some r => exact ⟨mem_append_left _ h.1, h.2.1, fun y hy hyk => h.2.2 y (hold y hy hyk) hyk⟩

theorem Wins.behind (h : Wins key ver held k (some r)) (hle : ver x ≤ ver r) :
    Wins key ver (held ++ [x]) k (some r) := by
  refine ⟨mem_append_left _ h.1, h.2.1, fun y hy hyk => ?_⟩
  rcases mem_append.mp hy with hy | hy
  · exact h.2.2 y hy hyk
  · exact mem_singleton.mp hy ▸ hle

theorem Wins.ahead (h : Wins key ver held k w) (hkey : key x = k) (hlt : ∀ r, w = some r → ver r < ver x) :
    Wins key ver (held ++ [x]) k (some x) := by
  refine ⟨mem_append_right _ (mem_singleton_self x), hkey, fun y hy hyk => ?_⟩
  rcases mem_append.mp hy with hy | hy
  · obtain ⟨r, hr, hle⟩ := h.below hy hyk
    exact (hle.trans_lt (hlt r hr)).le
  · rw [mem_singleton.mp hy]

/-- What stands depends on which records came in, where no two of them carry one version. -/
theorem Wins.agree (h : Wins key ver held k w) (h' : Wins key ver held' k w')
    (hsame : ∀ x, key x = k → (x ∈ held ↔ x ∈ held'))
    (hdistinct : ∀ x ∈ held, ∀ y ∈ held, key x = k → key y = k → ver x = ver y → x = y) : w = w' := by
  cases w with
  | none =>
    cases w' with
    | none => rfl
    | some r' => exact absurd h'.2.1 (h r' ((hsame r' h'.2.1).mpr h'.1))
  | some r =>
    obtain ⟨r', rfl, hle⟩ := h'.below ((hsame r h.2.1).mp h.1) h.2.1
    have hmem' := (hsame r' h'.2.1).mpr h'.1
    rw [hdistinct r h.1 r' hmem' h.2.1 h'.2.1 (hle.antisymm (h.2.2 r' hmem' h'.2.1))]

end LastWriter
