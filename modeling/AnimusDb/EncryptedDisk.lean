import AnimusDb.ByteCodec
import Mathlib.Logic.Function.Basic

/-! Encryption at rest: a file is a header with a salt, then frames that are sealed under the salt and their
position. The position of the next frame is what the file holds, so a frame that was sealed and then lost
gives its nonce away. -/

open ByteCodec Function List Option

namespace AnimusDb.Encrypted

section Format

def magic : Bytes := [0x41, 0x44, 0x45, 0x31]

def version : UInt8 := 1

def saltLen : Nat := 16

def headerLen : Nat := 4 + 1 + saltLen

def tagLen : Nat := 16

def lenPrefix : Nat := 4

/-- The AEAD under the key of the disk. -/
structure Cipher where
  encrypt : Bytes → Bytes → Bytes
  decrypt : Bytes → Bytes → Option Bytes
  decrypt_encrypt : ∀ nonce plaintext, decrypt nonce (encrypt nonce plaintext) = some plaintext
  length_encrypt : ∀ nonce plaintext, (encrypt nonce plaintext).length = plaintext.length + tagLen

def deriveNonce (salt : Bytes) (counter : Nat) : Bytes := salt ++ be 8 counter

def makeHeader (salt : Bytes) : Bytes := magic ++ version :: salt

variable (cipher : Cipher)

/-- There is no frame where the length of the ciphertext does not fit, which panics. -/
def sealFrame (salt : Bytes) (counter : Nat) (plaintext : Bytes) : Option Bytes :=
  let ct := cipher.encrypt (deriveNonce salt counter) plaintext
  if ct.length < 256 ^ 4 then some (putPrefixed ct) else none

def openFrame (salt : Bytes) (counter : Nat) (ciphertext : Bytes) : Option Bytes :=
  cipher.decrypt (deriveNonce salt counter) ciphertext

/-- The index of a file, with its number of frames. -/
structure FileIndex where
  salt : Bytes
  frames : Nat
  rawLen : Nat

inductive Scan where
  | absent
  | notEncrypted
  | unsupportedVersion (found : UInt8)
  | ok (index : FileIndex) (torn : Bool)
  | corrupted

/-- The loop of `scan_v1` over what is left of the file, which gets shorter with each frame. -/
def scanFrames (salt : Bytes) : Nat → Nat → Bool → FileIndex → Bytes → Scan
  | 0, _, failed, trusted, _ => .ok trusted failed
  | fuel + 1, counter, failed, trusted, raw =>
    if raw = [] then .ok trusted failed
    else match prefixed raw with
      | none => .ok trusted true
      | some (ct, rest) =>
        if ct.length < tagLen then .ok trusted true
        else match openFrame cipher salt counter ct with
          | some _ =>
            -- a frame that opens after one that did not: no torn tail
            if failed then .corrupted
            else scanFrames salt fuel (counter + 1) false
              ⟨trusted.salt, trusted.frames + 1, trusted.rawLen + (lenPrefix + ct.length)⟩ rest
          | none => scanFrames salt fuel (counter + 1) true trusted rest

def scanV1 (raw : Bytes) : Scan :=
  let salt := (raw.take headerLen).drop 5
  scanFrames cipher salt raw.length 0 false ⟨salt, 0, headerLen⟩ (raw.drop headerLen)

def scan (raw : Bytes) : Scan :=
  if raw = [] then .absent
  else if raw.length < headerLen ∨ raw.take 4 ≠ magic then .notEncrypted
  else match raw.drop 4 with
    | found :: _ => if found = version then scanV1 cipher raw else .unsupportedVersion found
    | [] => .notEncrypted

end Format

section Disk

variable (File : Type)

/-- The inner disk and the cached indices. The rest is for the record: the salts drawn, the frames sealed
under a salt and a counter, and the files that may hold less than was sealed for them. -/
structure EncryptedDisk where
  inner : File → Bytes
  cache : File → Option FileIndex
  drawn : List Bytes
  sealed : List (Bytes × Nat × Bytes)
  spoiled : File → Bool

inductive Event where
  /-- An append; the inner one may fail after some bytes. -/
  | append (file : File) (bytes salt : Bytes) (failedAfter : Option Nat)
  /-- `read`, `read_at` and `size` build the index. -/
  | read (file : File) (salt : Bytes)
  | replace (file : File) (bytes salt : Bytes)
  | remove (file : File)
  /-- A link that was made; one that fails changes nothing. -/
  | link (src dst : File)
  /-- The process ends and starts again with the first bytes of each file; how many of them were synced is
  not modelled. -/
  | crash (left : File → Nat)

def EncryptedDisk.start : EncryptedDisk File := ⟨fun _ => [], fun _ => none, [], [], fun _ => false⟩

variable {File} [DecidableEq File] (cipher : Cipher) (d : EncryptedDisk File)

namespace EncryptedDisk

/-- `get_index` and `load_or_init_index`; `salt` is what the generator would give. -/
def getIndex (file : File) (salt : Bytes) : EncryptedDisk File × Option FileIndex :=
  match d.cache file with
  | some idx => (d, some idx)
  | none =>
    match scan cipher (d.inner file) with
    | .absent =>
      ({ d with cache := update d.cache file (some ⟨salt, 0, 0⟩), drawn := salt :: d.drawn }, some ⟨salt, 0, 0⟩)
    | .ok idx torn =>
      let raw := d.inner file
      ({ d with
        inner := update d.inner file (if torn || idx.rawLen < raw.length then raw.take idx.rawLen else raw)
        cache := update d.cache file (some idx) }, some idx)
    | _ => (d, none)

/-- One operation; there is no result where a frame is too long. -/
def step : Event File → Option (EncryptedDisk File)
  | .append file bytes salt failedAfter =>
    match d.getIndex cipher file salt with
    | (d, none) => some d
    | (d, some idx) => do
      let framed ← sealFrame cipher idx.salt idx.frames bytes
      let header := if idx.rawLen = 0 then makeHeader idx.salt else []
      let offset := if idx.rawLen = 0 then headerLen else idx.rawLen
      let d := { d with sealed := (idx.salt, idx.frames, bytes) :: d.sealed }
      match failedAfter with
      | none => some { d with
          inner := update d.inner file (d.inner file ++ (header ++ framed))
          cache := update d.cache file (some ⟨idx.salt, idx.frames + 1, offset + framed.length⟩) }
      | some n => some { d with
          inner := update d.inner file (d.inner file ++ (header ++ framed).take n),
          spoiled := update d.spoiled file true }
  | .read file salt => some (d.getIndex cipher file salt).1
  | .replace file bytes salt => do
    let framed ← sealFrame cipher salt 0 bytes
    some
      { inner := update d.inner file (makeHeader salt ++ framed)
        cache := update d.cache file (some ⟨salt, 1, headerLen + framed.length⟩), drawn := salt :: d.drawn
        sealed := (salt, 0, bytes) :: d.sealed, spoiled := update d.spoiled file false }
  | .remove file => some { d with
      inner := update d.inner file [], cache := update d.cache file none,
      spoiled := update d.spoiled file false }
  | .link src dst => some { d with
      inner := update d.inner dst (d.inner src), cache := update d.cache dst (d.cache src),
      spoiled := update d.spoiled dst true }
  | .crash left => some { d with
      inner := fun file => (d.inner file).take (left file)
      cache := fun _ => none
      spoiled := fun file => decide ((d.inner file).take (left file) ≠ []) &&
        (d.spoiled file || decide (left file < (d.inner file).length)) }

/-- The salt that an operation may draw has its length and is a new one. -/
def Fresh : Event File → Prop
  | .append _ _ salt _ | .read _ salt | .replace _ _ salt => salt.length = saltLen ∧ salt ∉ d.drawn
  | _ => True

/-- Nothing is appended to a file after an append to it failed, a crash left only a part of it, or a link
made it, until it is replaced or removed or a crash leaves nothing of it. -/
def Careful : Event File → Prop
  | .append file .. => d.spoiled file = false
  | _ => True

/-- The states of all runs with new salts whose operations meet a condition. -/
inductive Reached (cond : EncryptedDisk File → Event File → Prop) : EncryptedDisk File → Prop
  | start : Reached cond (.start File)
  | step {d d' : EncryptedDisk File} (h : Reached cond d) (ev : Event File) (hfresh : d.Fresh ev)
      (hcond : cond d ev) (hstep : d.step cipher ev = some d') : Reached cond d'

/-- No two different plaintexts are sealed under one salt and counter. -/
def NonceUnique : Prop := ∀ salt counter p q, (salt, counter, p) ∈ d.sealed → (salt, counter, q) ∈ d.sealed →
    p = q

end EncryptedDisk

end Disk

variable {ps : List Bytes} {cipher : Cipher}

variable {salt : Bytes} {counter : Nat}

/-- The frames of some plaintexts, from a counter on. -/
def frames (cipher : Cipher) (salt : Bytes) : Nat → List Bytes → Bytes
  | _, [] => []
  | counter, p :: ps =>
    putPrefixed (cipher.encrypt (deriveNonce salt counter) p) ++ frames cipher salt (counter + 1) ps

theorem frames_snoc (counter : Nat) (ps : List Bytes) (p : Bytes) : frames cipher salt counter (ps ++ [p]) =
    frames cipher salt counter ps ++
    putPrefixed (cipher.encrypt (deriveNonce salt (counter + ps.length)) p) := by
  induction ps generalizing counter with
  | nil => simp [frames]
  | cons q ps ih => simp [frames, ih, Nat.add_assoc, Nat.add_comm 1]

/-- The length of the plaintext's frame fits its prefix. -/
def Fits (p : Bytes) : Prop := p.length + tagLen < 256 ^ 4

theorem of_sealFrame {p framed : Bytes} (h : sealFrame cipher salt counter p = some framed) :
    Fits p ∧ framed = putPrefixed (cipher.encrypt (deriveNonce salt counter) p) := by
  unfold sealFrame at h
  dsimp only at h
  split_ifs at h with hlen
  cases h
  rw [cipher.length_encrypt] at hlen
  exact ⟨hlen, rfl⟩

variable (cipher salt) in
/-- A file that holds nothing but whole frames is read to its end. -/
theorem scanFrames_frames (counter : Nat) (hfits : ∀ p ∈ ps, Fits p) {fuel : Nat}
    (hfuel : ps.length ≤ fuel) (trusted : FileIndex) :
    scanFrames cipher salt fuel counter false trusted (frames cipher salt counter ps) =
      .ok ⟨trusted.salt, trusted.frames + ps.length, trusted.rawLen + (frames cipher salt counter ps).length⟩
      false := by
  induction ps generalizing fuel counter trusted with
  | nil => cases fuel <;> rfl
  | cons p ps ih =>
    obtain ⟨fuel, rfl⟩ : ∃ n, fuel = n + 1 := ⟨fuel - 1, by simp at hfuel; omega⟩
    have hlen := cipher.length_encrypt (deriveNonce salt counter) p
    have hfit : p.length + tagLen < 256 ^ 4 := hfits p mem_cons_self
    rw [← hlen] at hfit
    rw [frames, scanFrames, if_neg (by simp [putPrefixed, be]), reads_prefixed hfit]
    dsimp only
    rw [if_neg (by omega), openFrame, cipher.decrypt_encrypt]
    dsimp only
    rw [if_neg (by simp), ih (counter + 1) (fun q hq => hfits q (mem_cons_of_mem p hq))
      (Nat.le_of_succ_le_succ hfuel)]
    simp [putPrefixed, lenPrefix, Nat.add_assoc, Nat.add_comm 1]

variable (cipher salt) in
theorem length_le_frames (counter : Nat) (ps : List Bytes) :
    ps.length ≤ (frames cipher salt counter ps).length := by
  induction ps generalizing counter with
  | nil => exact le_rfl
  | cons p ps ih =>
    have := ih (counter + 1)
    simp [frames, putPrefixed]
    omega

theorem length_makeHeader (hsalt : salt.length = saltLen) : (makeHeader salt).length = headerLen := by
  simp [makeHeader, magic, hsalt, headerLen, saltLen]

/-- What a file holds whose frames are all there; the header is written with the first frame. -/
def stored (cipher : Cipher) (salt : Bytes) (ps : List Bytes) : Bytes :=
  if ps = [] then [] else makeHeader salt ++ frames cipher salt 0 ps

variable (cipher) in
theorem scan_stored (hsalt : salt.length = saltLen) (hfits : ∀ p ∈ ps, Fits p) (hps : ps ≠ []) :
    scan cipher (stored cipher salt ps) = .ok ⟨salt, ps.length, (stored cipher salt ps).length⟩ false := by
  have hheader := length_makeHeader hsalt
  rw [stored, if_neg hps]
  have hfuel : ps.length ≤ (makeHeader salt ++ frames cipher salt 0 ps).length := by
    rw [length_append]
    exact (length_le_frames cipher salt 0 ps).trans (Nat.le_add_left _ _)
  have hv1 := scanFrames_frames cipher salt 0 hfits hfuel ⟨salt, 0, (makeHeader salt).length⟩
  simp only [Nat.zero_add] at hv1
  rw [← length_append] at hv1
  rw [scan, if_neg (by simp [makeHeader]), if_neg (by simp [hheader]; simp [makeHeader, magic])]
  change scanV1 cipher (makeHeader salt ++ frames cipher salt 0 ps) = _
  rw [scanV1, ← hheader, take_left, drop_left]
  exact hv1

/-- An append of the next frame, with the header where the file is empty. -/
theorem stored_snoc (ps : List Bytes) (p : Bytes) : stored cipher salt (ps ++ [p]) =
    stored cipher salt ps ++ ((if (stored cipher salt ps).length = 0 then makeHeader salt else []) ++
      putPrefixed (cipher.encrypt (deriveNonce salt ps.length) p)) := by
  by_cases hps : ps = []
  · subst hps
    simp [stored, frames]
  · simp [stored, hps, frames_snoc, makeHeader]

variable {r : Option FileIndex}

section Runs

variable {File : Type} {d d' : EncryptedDisk File} {owner : File → Option (Bytes × List Bytes)} {file : File}
  {salt : Bytes}

/-- The file holds all that was sealed under its salt, and its index says so. -/
structure Kept (cipher : Cipher) (d : EncryptedDisk File) (file : File) (salt : Bytes) (ps : List Bytes) :
    Prop where
  length_salt : salt.length = saltLen
  drawn : salt ∈ d.drawn
  fits : ∀ p ∈ ps, Fits p
  contents : d.inner file = stored cipher salt ps
  index : ∀ idx, d.cache file = some idx → idx = ⟨salt, ps.length, (stored cipher salt ps).length⟩
  ahead : ∀ counter p, (salt, counter, p) ∈ d.sealed → counter < ps.length

/-- A file without a salt is empty or spoiled. -/
def Stands (cipher : Cipher) (d : EncryptedDisk File) (file : File) : Option (Bytes × List Bytes) → Prop
  | none => d.spoiled file = false → d.cache file = none ∧ d.inner file = []
  | some (salt, ps) => Kept cipher d file salt ps

/-- No other file has the salt. -/
def Own (owner : File → Option (Bytes × List Bytes)) (file : File) (salt : Bytes) : Prop :=
  ∀ g, g ≠ file → ∀ ps, owner g ≠ some (salt, ps)

/-- `owner` says which files are kept, with their salts and plaintexts. -/
structure Sound (cipher : Cipher) (d : EncryptedDisk File) (owner : File → Option (Bytes × List Bytes)) :
    Prop where
  files : ∀ file, Stands cipher d file (owner file)
  apart : ∀ file salt ps, owner file = some (salt, ps) → Own owner file salt
  drawn : ∀ salt counter p, (salt, counter, p) ∈ d.sealed → salt ∈ d.drawn
  unique : d.NonceUnique

theorem Sound.kept (h : Sound cipher d owner) (hfile : owner file = some (salt, ps)) :
    Kept cipher d file salt ps := by
  have := h.files file
  rwa [hfile] at this

theorem Sound.own_of_fresh (h : Sound cipher d owner) (hsalt : salt ∉ d.drawn) : Own owner file salt :=
  fun _ _ _ hg => hsalt (h.kept hg).drawn

/-- Where an operation seals a frame, it is under a salt of the file and a counter that the salt has not reached. -/
inductive Seals (d d' : EncryptedDisk File) (owner : File → Option (Bytes × List Bytes)) (file : File) : Prop
  | none (hsealed : d'.sealed = d.sealed)
  | frame (salt : Bytes) (n : Nat) (p : Bytes) (hsealed : d'.sealed = (salt, n, p) :: d.sealed)
      (hdrawn : salt ∈ d'.drawn)
      (hown : Own owner file salt) (hnew : ∀ counter q, (salt, counter, q) ∈ d.sealed → counter < n)

theorem Seals.mem (h : Seals d d' owner file) {s : Bytes} {counter : Nat} {p : Bytes}
    (hp : (s, counter, p) ∈ d'.sealed) : (s, counter, p) ∈ d.sealed ∨ s ∈ d'.drawn ∧ Own owner file s := by
  cases h with
  | none hsealed => exact .inl (hsealed ▸ hp)
  | frame salt n q hsealed hdrawn hown =>
    rw [hsealed, mem_cons] at hp
    obtain ⟨⟨⟩⟩ | hp := hp
    exacts [.inr ⟨hdrawn, hown⟩, .inl hp]

theorem Seals.unique (h : Seals d d' owner file) (hunique : d.NonceUnique) : d'.NonceUnique := by
  intro s counter q r hq hr
  cases h with
  | none hsealed => exact hunique s counter q r (hsealed ▸ hq) (hsealed ▸ hr)
  | frame salt n p hsealed _ _ hnew =>
    rw [hsealed, mem_cons] at hq hr
    obtain ⟨⟨⟩⟩ | hq := hq <;> obtain ⟨⟨⟩⟩ | hr := hr
    · rfl
    · exact absurd (hnew _ _ hr) (lt_irrefl _)
    · exact absurd (hnew _ _ hq) (lt_irrefl _)
    · exact hunique s counter q r hq hr

variable [DecidableEq File]

/-- What one operation does to one file leaves the others as they are: it seals only under the file's own salt. -/
theorem Sound.set (h : Sound cipher d owner) (file : File) (o : Option (Bytes × List Bytes))
    (hframe : ∀ g, g ≠ file → d'.inner g = d.inner g ∧ d'.cache g = d.cache g ∧ d'.spoiled g = d.spoiled g)
    (hdrawn : ∀ s ∈ d.drawn, s ∈ d'.drawn)
    (hseals : Seals d d' owner file) (hfile : Stands cipher d' file o) (hown : ∀ x ∈ o, Own owner file x.1) :
    Sound cipher d' (update owner file o) where
  files g := by
    by_cases hg : g = file
    · subst hg
      rwa [update_self]
    rw [update_of_ne hg]
    obtain ⟨hinner, hcache, hspoiled⟩ := hframe g hg
    cases ho : owner g with
    | none =>
      have hblank := h.files g
      rw [ho] at hblank
      simpa only [Stands, hinner, hcache, hspoiled] using hblank
    | some o =>
      have hkept := h.kept ho
      exact {
        hkept with
        drawn := hdrawn _ hkept.drawn, contents := hinner.trans hkept.contents
        index := fun idx hidx => hkept.index idx (hcache ▸ hidx)
        ahead := fun counter p hp => (hseals.mem hp).elim (hkept.ahead counter p) fun hnew =>
          absurd ho (hnew.2 g hg _) }
  apart f s ps hf g hne qs hgo := by
    by_cases hffile : f = file
    · subst hffile
      rw [update_self] at hf
      rw [update_of_ne hne] at hgo
      exact hown _ hf g hne qs hgo
    rw [update_of_ne hffile] at hf
    by_cases hgfile : g = file
    · subst hgfile
      rw [update_self] at hgo
      exact hown _ hgo f hffile ps hf
    · rw [update_of_ne hgfile] at hgo
      exact h.apart f s ps hf g hne qs hgo
  drawn s counter p hp := (hseals.mem hp).elim (fun hold => hdrawn s (h.drawn s counter p hold)) And.left
  unique := hseals.unique h.unique

theorem getIndex_frame (file : File) (salt : Bytes) (h : d.getIndex cipher file salt = (d', r)) :
    d'.sealed = d.sealed ∧ d'.spoiled = d.spoiled ∧ (∀ s ∈ d.drawn, s ∈ d'.drawn) ∧
      ∀ g, g ≠ file → d'.inner g = d.inner g ∧ d'.cache g = d.cache g := by
  unfold EncryptedDisk.getIndex at h
  split at h
  · cases h
    simp
  split at h <;> cases h <;> simp +contextual

/-- The index of a file that is kept. -/
def Found (cipher : Cipher) (owner : File → Option (Bytes × List Bytes)) (file : File)
    (r : Option FileIndex) : Prop :=
  ∀ idx ∈ r, ∃ salt ps, owner file = some (salt, ps) ∧ idx = ⟨salt, ps.length, (stored cipher salt ps).length⟩

/-- `get_index` finds a file that is not spoiled with all of its frames. -/
theorem Sound.getIndex (h : Sound cipher d owner) (hsalt : salt.length = saltLen ∧ salt ∉ d.drawn)
    (hget : d.getIndex cipher file salt = (d', r)) :
    ∃ owner', Sound cipher d' owner' ∧ (d.spoiled file = false → Found cipher owner' file r) := by
  obtain ⟨hsealed, hspoiled, hdrawn, hframe⟩ := getIndex_frame file salt hget
  have hset (o) : Stands cipher d' file o → (∀ x ∈ o, Own owner file x.1) →
    Sound cipher d' (update owner file o) :=
    h.set file o (fun g hg => ⟨(hframe g hg).1, (hframe g hg).2, by rw [hspoiled]⟩) hdrawn (.none hsealed)
  by_cases hs : d.spoiled file = true
  · exact ⟨_, hset none (by simp [Stands, hspoiled, hs]) (by simp), by simp [hs]⟩
  -- an empty file gets a salt of its own
  have hempty (hcache : d.cache file = none) (hinner : d.inner file = []) :
      ∃ owner', Sound cipher d' owner' ∧ (d.spoiled file = false → Found cipher owner' file r) := by
    simp only [EncryptedDisk.getIndex, hcache, hinner, scan, if_true] at hget
    cases hget
    refine ⟨_, hset (some (salt, [])) ⟨hsalt.1,
      mem_cons_self, by simp, by simpa [stored], by simp [stored], ?_⟩ ?_, fun _ => by simp [Found, stored]⟩
    · exact fun counter p hp => absurd (h.drawn _ _ _ hp) hsalt.2
    · simpa using h.own_of_fresh hsalt.2
  cases ho : owner file with
  | none =>
    have hblank := h.files file
    rw [ho] at hblank
    exact (hblank (by simpa using hs)).elim hempty
  | some o =>
    obtain ⟨s, ps⟩ := o
    have hkept := h.kept ho
    cases hcache : d.cache file with
    | some idx =>
      simp only [EncryptedDisk.getIndex, hcache] at hget
      cases hget
      cases hkept.index idx hcache
      exact ⟨owner, h, fun _ => by simp [Found, ho]⟩
    | none =>
      by_cases hps : ps = []
      · exact hempty hcache (by simp [hkept.contents, stored, hps])
      have hscan := scan_stored cipher hkept.length_salt hkept.fits hps
      rw [← hkept.contents] at hscan
      simp [EncryptedDisk.getIndex, hcache, hscan] at hget
      obtain ⟨rfl, rfl⟩ := hget
      refine ⟨_, hset (some (s, ps)) { hkept with index := by simp [hkept.contents] } ?_, fun _ => ?_⟩
      · simpa using h.apart _ _ _ ho
      · simp [Found, hkept.contents]

/-- An append that fails spoils the file; one that does not is the next frame of it. -/
theorem Sound.append (h : Sound cipher d owner) {bytes : Bytes} {failedAfter : Option Nat}
    (hfresh : salt.length = saltLen ∧ salt ∉ d.drawn) (hcareful : d.spoiled file = false)
    (hstep : d.step cipher (.append file bytes salt failedAfter) = some d') :
      ∃ owner', Sound cipher d' owner' := by
  unfold EncryptedDisk.step at hstep
  rcases hget : d.getIndex cipher file salt with ⟨d₁, _ | idx⟩ <;> simp only [hget] at hstep
  all_goals obtain ⟨owner₁, h₁, hfound⟩ := h.getIndex hfresh hget
  · cases hstep
    exact ⟨owner₁, h₁⟩
  obtain ⟨framed, hframed, hstep⟩ := bind_eq_some_iff.mp hstep
  obtain ⟨hfit, rfl⟩ := of_sealFrame hframed
  obtain ⟨s, ps, ho, rfl⟩ := hfound hcareful idx rfl
  have hkept := h₁.kept ho
  have hown := h₁.apart _ _ _ ho
  cases failedAfter with
  | none =>
    cases hstep
    refine ⟨_, h₁.set file (some (s, ps ++ [bytes])) (by simp +contextual) (by simp)
      (.frame s ps.length bytes rfl hkept.drawn hown hkept.ahead)
      ⟨hkept.length_salt, hkept.drawn, ?_, by simp [hkept.contents, stored_snoc], ?_, ?_⟩ (by simpa using hown)⟩
    · simpa [or_imp, forall_and] using ⟨hkept.fits, hfit⟩
    · simp only [update_self, some.injEq, stored_snoc]
      rintro idx rfl
      split_ifs with hlen <;> simp [hlen, length_makeHeader hkept.length_salt]
    · intro counter p hp
      obtain ⟨⟨⟩⟩ | hp := mem_cons.mp hp
      · simp
      · simpa using Nat.lt_succ_of_lt (hkept.ahead counter p hp)
  | some n =>
    cases hstep
    exact ⟨_, h₁.set file none (by simp +contextual) (by simp)
      (.frame s ps.length bytes rfl hkept.drawn hown hkept.ahead) (by simp [Stands]) (by simp)⟩

theorem Sound.step (h : Sound cipher d owner) {ev : Event File} (hfresh : d.Fresh ev)
    (hcareful : d.Careful ev) (hstep : d.step cipher ev = some d') : ∃ owner', Sound cipher d' owner' := by
  cases ev with
  | append => exact h.append hfresh hcareful hstep
  | read file salt =>
    cases hstep
    obtain ⟨owner₁, h₁, _⟩ := h.getIndex hfresh rfl
    exact ⟨owner₁, h₁⟩
  | replace file bytes salt =>
    obtain ⟨framed, hframed, hstep⟩ := bind_eq_some_iff.mp hstep
    obtain ⟨hfit, rfl⟩ := of_sealFrame hframed
    cases hstep
    have hnew : ∀ counter p, (salt, counter, p) ∉ d.sealed := fun _ _ hp => hfresh.2 (h.drawn _ _ _ hp)
    refine ⟨_, h.set file (some (salt, [bytes])) (by simp +contextual) (by simp +contextual)
      (.frame salt 0 bytes rfl mem_cons_self (h.own_of_fresh hfresh.2) fun _ _ hp => absurd hp (hnew _ _)) ?_
      (by simpa using h.own_of_fresh hfresh.2)⟩
    refine ⟨hfresh.1, mem_cons_self, by simpa, by simp [stored, frames], ?_, by simp [hnew]⟩
    simp [stored, frames, length_makeHeader hfresh.1]
  | remove file =>
    cases hstep
    exact ⟨_, h.set file none (by simp +contextual) (by simp) (.none rfl) (by simp [Stands]) (by simp)⟩
  | link src dst =>
    cases hstep
    exact ⟨_, h.set dst none (by simp +contextual) (by simp) (.none rfl) (by simp [Stands]) (by simp)⟩
  | crash left =>
    cases hstep
    refine ⟨fun f => if (d.inner f).take (left f) = d.inner f ∧ d.inner f ≠ [] ∧
      d.spoiled f = false then owner f else none,
      fun f => ?_, fun f s ps hf g hne qs hg => ?_, h.drawn, h.unique⟩
    · split_ifs with hkeep
      · obtain ⟨hall, hne, hs⟩ := hkeep
        cases ho : owner f with
        | none =>
          have hblank := h.files f
          rw [ho] at hblank
          exact absurd (hblank hs).2 hne
        | some o => exact { h.kept ho with contents := hall.trans (h.kept ho).contents, index := by simp }
      · intro hs
        refine ⟨rfl, by_contra fun hne => hkeep ?_⟩
        simp only [ne_eq, hne, not_false_eq_true, decide_true, Bool.true_and, Bool.or_eq_false_iff,
          decide_eq_false_iff_not, not_lt] at hs
        exact ⟨take_of_length_le hs.2, fun hnil => hne (by simp [hnil]), hs.1⟩
    · split_ifs at hf hg
      exact h.apart f s ps hf g hne qs hg

variable (cipher) in
/-- In a run with new salts that appends to no spoiled file, no two plaintexts share a nonce. -/
theorem sealed_nonces_unique (h : d.Reached cipher EncryptedDisk.Careful) : d.NonceUnique := by
  have hsound : ∃ owner, Sound cipher d owner := by
    induction h with
    | start => exact ⟨fun _ => none, fun _ _ => ⟨rfl, rfl⟩, nofun, nofun, nofun⟩
    | step _ _ hfresh hcareful hstep ih =>
      obtain ⟨owner, hsound⟩ := ih
      exact hsound.step hfresh hcareful hstep
  obtain ⟨owner, hsound⟩ := hsound
  exact hsound.unique

/-- A cipher that only appends a tag. -/
def tagging : Cipher where
  encrypt _ p := p ++ replicate tagLen 0
  decrypt _ ct := some (ct.take (ct.length - tagLen))
  decrypt_encrypt := by simp
  length_encrypt := by simp

/-- A file is written, found again after a crash that leaves all of it, and written on. -/
theorem sealed_nonces_unique_reopened : ∃ d : EncryptedDisk Unit, d.Reached tagging EncryptedDisk.Careful ∧
    d.sealed.map Prod.snd = [(1, [2]), (0, [1])] ∧ d.NonceUnique := by
  have hrun := (((EncryptedDisk.Reached.start : (EncryptedDisk.start Unit).Reached tagging
    EncryptedDisk.Careful).step
    (.append () [1] (.replicate 16 7) none) ⟨rfl, nofun⟩ rfl rfl).step
      (.crash fun _ => 100) trivial trivial rfl).step
    (.append () [2] (.replicate 16 8) none) ⟨rfl, by decide +kernel⟩ rfl rfl
  exact ⟨_, hrun, rfl, sealed_nonces_unique tagging hrun⟩

/-- An append that fails is tried again with other bytes: the counter is still that of the cached index. -/
theorem failed_append_repeats_nonce : ∃ d : EncryptedDisk Unit, d.Reached tagging (fun _ _ => True) ∧
    ¬ d.NonceUnique := by
  have hrun := ((EncryptedDisk.Reached.start : (EncryptedDisk.start Unit).Reached tagging fun _ _ =>
    True).step (.append () [1] (.replicate 16 7) (some 0)) ⟨rfl, nofun⟩ trivial rfl).step
    (.append () [2] (.replicate 16 8) none) ⟨rfl, by decide +kernel⟩ trivial rfl
  refine ⟨_, hrun, fun hunique => ?_⟩
  have := hunique _ _ _ _ mem_cons_self (mem_cons_of_mem _ mem_cons_self)
  revert this
  decide

end Runs

end AnimusDb.Encrypted
