import AnimusDb.LsmEngine

/-! The in-memory engine: every version of every key in one ordered map, nothing ever reclaimed. -/

namespace AnimusDb.Lsm

structure MemoryEngine where
  data : Store
  maxVersion : Version

namespace MemoryEngine

def empty : MemoryEngine := ⟨.empty, 0⟩

variable (m : MemoryEngine)

variable (version : Version) (start : Key)

def readAt (key : Key) (version : Version) : Option VersionedValue :=
  (m.data.newestAt key version).bind live

def latestVersionOf (key : Key) : Option Version :=
  (m.data.records.filter fun r => r.key = key).getLast?.map (·.version)

def keysInRange (stop : Option Key) : List Key :=
  m.data.keys.filter fun k => InRange start stop k

/-- The values as of `version` of the keys in the range. -/
def rowsAt (stop : Option Key) (version : Version) : List (Key × VersionedValue) :=
  (m.keysInRange start stop).filterMap fun key => (m.readAt key version).map fun v => (key, v)

def get (key : Key) : Option VersionedValue := m.readAt key versionMax

def getAt (key : Key) (version : Version) : Option VersionedValue := m.readAt key version

def scanAt (stop : Key) (version : Version) : Except CallError (List (Key × VersionedValue)) :=
  if stop < start then .error .invalidRange else .ok (m.rowsAt start (some stop) version)

def scan (stop : Key) : Except CallError (List (Key × VersionedValue)) :=
  m.scanAt start stop versionMax

def entriesAt : List (Key × VersionedValue) := m.rowsAt [] none version

def entries : List (Key × VersionedValue) := m.entriesAt versionMax

/-- The greatest recorded version of each key in the range, value or tombstone. -/
def latestRows (stop : Option Key) : List (Key × Option Value × Version) :=
  (m.keysInRange start stop).filterMap fun key =>
    ((m.data.records.filter fun r => r.key = key).getLast?).map tombstoneRow

def entriesWithTombstones : List (Key × Option Value × Version) := m.latestRows [] none

def scanWithTombstones (stop : Key) : List (Key × Option Value × Version) :=
  m.latestRows start (some stop)

def latestVersion : Version := m.maxVersion

def putSlot (value : Option Value) (data : Store) (key : Key) : Store :=
  data.insert ⟨key, version, value⟩

/-- `Inner::apply`. -/
def applyOp (data : Store) : WriteOp → Store
  | .put key value => putSlot version (some value) data key
  | .delete key => putSlot version none data key
  | .deleteRange start stop =>
    (data.keys.filter fun k => InRange start (some stop) k).foldl (putSlot version none) data

def checkMonotonic : Except CallError Unit :=
  if m.maxVersion < version then .ok () else .error (.nonMonotonicVersion version m.maxVersion)

/-- Last writer wins per key: apply only if strictly newer than the key's own latest. -/
def mergeSlot (op : MergeOp) : Bool × MemoryEngine :=
  if (m.latestVersionOf op.key).any fun cur => op.version ≤ cur then (false, m)
  else (true, ⟨putSlot op.version op.value m.data op.key, max m.maxVersion op.version⟩)

def writeOps (ops : List WriteOp) : MemoryEngine :=
  ⟨ops.foldl (applyOp version) m.data, version⟩

def write : WriteCall → Except CallError Reply × MemoryEngine
  | .put key value version =>
    match m.checkMonotonic version with
    | .error e => (.error e, m)
    | .ok () => (.ok .unit, m.writeOps version [.put key value])
  | .merge key value version =>
    let (effect, m) := m.mergeSlot ⟨key, version, some value⟩
    (.ok (.applied effect), m)
  | .mergeTombstone key version =>
    let (effect, m) := m.mergeSlot ⟨key, version, none⟩
    (.ok (.applied effect), m)
  | .mergeBatch ops => (.ok .unit, ops.foldl (fun m op => (m.mergeSlot op).2) m)
  | .delete key version =>
    match m.checkMonotonic version with
    | .error e => (.error e, m)
    | .ok () => (.ok .unit, m.writeOps version [.delete key])
  | .deleteRange start stop version =>
    if stop < start then (.error .invalidRange, m)
    else
      match m.checkMonotonic version with
      | .error e => (.error e, m)
      | .ok () => (.ok .unit, m.writeOps version [.deleteRange start stop])
  | .writeBatch version ops =>
    match m.checkMonotonic version with
    | .error e => (.error e, m)
    | .ok () =>
      if ops.any WriteOp.inverted then (.error .invalidRange, m) else (.ok .unit, m.writeOps version ops)

end MemoryEngine

end AnimusDb.Lsm
