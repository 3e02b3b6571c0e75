import AnimusDb.LsmWal

/-! Decoding a segment: what was synced comes back first whatever the tail holds, and damage before a
durable marker is refused. -/

open ByteCodec
open List hiding take

namespace AnimusDb.Lsm

variable {crc : Bytes → UInt32} {body payload : Bytes} {pos next claimed : Nat} {record : WalRecord}

theorem parseFrame_size {input : Bytes} {size : Nat}
    (h : parseFrame crc input = some (payload, size)) : 8 ≤ size ∧ size ≤ input.length := by
  unfold parseFrame at h
  split at h
  · cases h
  · dsimp only at h
    split at h
    · cases h
    · rename_i hlen
      split at h
      · cases h
        unfold walFrameHeaderBytes at *
        omega
      · cases h

theorem tryParseWalFrame_some (h : tryParseWalFrame crc body pos = some (record, next)) :
    ∃ payload size, parseFrame crc (body.drop pos) = some (payload, size) ∧
      decodeWalRecord payload = some record ∧ next = pos + size := by
  obtain ⟨⟨payload, size⟩, hframe, h⟩ := Option.bind_eq_some_iff.mp h
  obtain ⟨r, hrecord, h⟩ := Option.bind_eq_some_iff.mp h
  cases h
  exact ⟨payload, size, hframe, hrecord, rfl⟩

theorem tryParseWalMarker_some (h : tryParseWalMarker crc body pos = some (claimed, next)) :
    ∃ offset size, parseFrame crc (body.drop pos) = some (walMarkerTag :: offset, size) ∧
      offset.length = 8 ∧ claimed = ofBe offset ∧ next = pos + size := by
  obtain ⟨⟨payload, size⟩, hframe, h⟩ := Option.bind_eq_some_iff.mp h
  dsimp only at h
  split at h
  · rename_i tag offset
    split at h
    · rename_i htag
      cases h
      exact ⟨offset, size, htag.1 ▸ hframe, htag.2, rfl, rfl⟩
    · cases h
  · cases h

theorem lt_of_tryParseWalFrame (h : tryParseWalFrame crc body pos = some (record, next)) :
    pos < next ∧ next ≤ body.length := by
  obtain ⟨payload, size, hframe, -, rfl⟩ := tryParseWalFrame_some h
  have hsize := parseFrame_size hframe
  rw [length_drop] at hsize
  omega

theorem lt_of_tryParseWalMarker
    (h : tryParseWalMarker crc body pos = some (claimed, next)) : pos < next ∧ next ≤ body.length := by
  obtain ⟨offset, size, hframe, -, -, rfl⟩ := tryParseWalMarker_some h
  have hsize := parseFrame_size hframe
  rw [length_drop] at hsize
  omega

theorem decodeLoop_fuel (fuel fuel' pos : Nat) (h : body.length < pos + fuel)
    (h' : body.length < pos + fuel') : decodeLoop crc body fuel pos = decodeLoop crc body fuel' pos := by
  induction fuel generalizing fuel' pos with
  | zero =>
    cases fuel' with
    | zero => rfl
    | succ fuel' =>
      rw [decodeLoop, decodeLoop, if_pos (by omega)]
  | succ fuel ih =>
    cases fuel' with
    | zero => rw [decodeLoop, decodeLoop, if_pos (by omega)]
    | succ fuel' =>
      rw [decodeLoop, decodeLoop]
      split
      · rfl
      · cases hframe : tryParseWalFrame crc body pos with
        | some found =>
          obtain ⟨record, next⟩ := found
          have := lt_of_tryParseWalFrame hframe
          dsimp only
          rw [ih fuel' next (by omega) (by omega)]
        | none =>
          dsimp only
          cases hmarker : tryParseWalMarker crc body pos with
          | some found =>
            obtain ⟨claimed, next⟩ := found
            have := lt_of_tryParseWalMarker hmarker
            dsimp only
            rw [ih fuel' next (by omega) (by omega)]
          | none => rfl

variable (crc) in
/-- The decoder from a position on. -/
def decodeFrom (body : Bytes) (pos : Nat) : Except StorageError (List WalRecord × Nat) :=
  decodeLoop crc body (body.length + 1) pos

theorem decodeFrom_record (h : tryParseWalFrame crc body pos = some (record, next)) :
    decodeFrom crc body pos = (decodeFrom crc body next).map fun found => (record :: found.1, found.2) := by
  have hlt := lt_of_tryParseWalFrame h
  unfold decodeFrom
  rw [decodeLoop, if_neg (by omega), h]
  dsimp only
  rw [decodeLoop_fuel _ (body.length + 1) _ (by omega) (by omega)]
  cases decodeLoop crc body (body.length + 1) next <;> rfl

theorem decodeFrom_marker (hframe : tryParseWalFrame crc body pos = none)
    (h : tryParseWalMarker crc body pos = some (claimed, next)) (hplaced : claimed = walHeaderLen + pos) :
    decodeFrom crc body pos = decodeFrom crc body next := by
  have hlt := lt_of_tryParseWalMarker h
  unfold decodeFrom
  rw [decodeLoop, if_neg (by omega), hframe, h]
  dsimp only
  rw [if_pos hplaced, decodeLoop_fuel _ (body.length + 1) _ (by omega) (by omega)]

theorem decodeFrom_end (body : Bytes) :
    decodeFrom crc body body.length = .ok ([], walHeaderLen + body.length) := by
  unfold decodeFrom
  rw [decodeLoop, if_pos le_rfl]

/-- Where nothing parses, a marker later on tells damage from a torn end. -/
theorem decodeFrom_unparsed (hpos : pos < body.length)
    (hframe : tryParseWalFrame crc body pos = none) (hmarker : tryParseWalMarker crc body pos = none) :
    decodeFrom crc body pos = (walMarkerAfter crc body (pos + 1)).elim (.ok ([], walHeaderLen + pos))
      (.error ∘ corruptBeforeMarker pos) := by
  unfold decodeFrom
  rw [decodeLoop, if_neg (by omega), hframe, hmarker]
  dsimp only
  cases walMarkerAfter crc body (pos + 1) <;> rfl

variable {bytes offset : Bytes}

variable (crc) in
/-- The bytes are one frame with the payload, whatever follows them. -/
def IsFrame (bytes payload : Bytes) : Prop :=
  ∀ rest, parseFrame crc (bytes ++ rest) = some (payload, bytes.length)

variable (crc) in
/-- A body made of frames: the records in them, and markers at the offsets they claim. -/
inductive Framed : Bytes → List WalRecord → Prop
  | nil : Framed [] []
  | record {body bytes payload : Bytes} {records : List WalRecord} {record : WalRecord}
      (h : Framed body records) (hframe : IsFrame crc bytes payload)
      (hrecord : decodeWalRecord payload = some record) : Framed (body ++ bytes) (records ++ [record])
  | marker {body bytes offset : Bytes} {records : List WalRecord} (h : Framed body records)
      (hframe : IsFrame crc bytes (walMarkerTag :: offset)) (hlen : offset.length = 8)
      (hplaced : ofBe offset = walHeaderLen + body.length) : Framed (body ++ bytes) records

theorem IsFrame.drop (h : IsFrame crc bytes payload) (body rest : Bytes) :
    parseFrame crc ((body ++ bytes ++ rest).drop body.length) = some (payload, bytes.length) := by
  rw [append_assoc, drop_left]
  exact h rest

/-- A frame depends on its own bytes only. -/
theorem isFrame_take {input : Bytes} {size : Nat}
    (h : parseFrame crc input = some (payload, size)) : IsFrame crc (input.take size) payload := by
  have hsize := parseFrame_size h
  intro rest
  have hlength : (input.take size).length = size := by
    rw [length_take]
    omega
  unfold parseFrame at h ⊢
  split at h
  · cases h
  rename_i hheader
  dsimp only at h ⊢
  split at h
  · cases h
  rename_i hlen
  split at h
  swap
  · cases h
  rename_i hsum
  simp only [Option.some.injEq, Prod.mk.injEq] at h
  obtain ⟨hpayload, rfl⟩ := h
  unfold walFrameHeaderBytes at *
  -- the header and the payload are within the bytes taken
  have hpart (i n : Nat) (hin : i + n ≤ 8 + ofBe (input.take 4)) :
      ((input.take (8 + ofBe (input.take 4)) ++ rest).drop i).take n = (input.drop i).take n := by
    rw [drop_append_of_le_length (by omega), take_append_of_le_length (by rw [length_drop]; omega), drop_take,
      take_take, Nat.min_eq_left (by omega)]
  have hfour := hpart 0 4 (by omega)
  rw [drop_zero, drop_zero] at hfour
  rw [hfour, hpart 4 4 (by omega), hpart 8 _ le_rfl, if_neg (by rw [length_append]; omega),
    if_neg (by rw [length_append]; omega), if_pos hsum, hpayload, hlength]

theorem decodeWalRecord_marker : decodeWalRecord (walMarkerTag :: offset) = none := by
  unfold decodeWalRecord readWalRecord andThen readU8 number
  have htake : take 1 (walMarkerTag :: offset) = some ([walMarkerTag], offset) := by
    unfold take
    rw [if_pos (by simp)]
    rfl
  rw [htake]
  rfl

/-- Decoding goes through the frames of a body and on into what follows it. -/
theorem Framed.decodeFrom {records : List WalRecord} (h : Framed crc body records)
    (tail : Bytes) : decodeFrom crc (body ++ tail) 0 =
      (decodeFrom crc (body ++ tail) body.length).map fun found => (records ++ found.1, found.2) := by
  induction h generalizing tail with
  | nil =>
    rw [length_nil]
    cases Lsm.decodeFrom crc ([] ++ tail) 0 <;> rfl
  | @record body bytes _ _ record h hframe hrecord ih =>
    have hparse : tryParseWalFrame crc (body ++ bytes ++ tail) body.length =
      some (record, (body ++ bytes).length) := by
      rw [tryParseWalFrame, hframe.drop]
      simp [hrecord]
    rw [append_assoc, ih, ← append_assoc, decodeFrom_record hparse]
    cases Lsm.decodeFrom crc _ _ with
    | error e => rfl
    | ok found =>
      dsimp only [Except.map]
      rw [append_assoc]
      rfl
  | @marker body bytes offset _ h hframe hlen hplaced ih =>
    have hnone : tryParseWalFrame crc (body ++ bytes ++ tail) body.length = none := by
      rw [tryParseWalFrame, hframe.drop]
      simp [decodeWalRecord_marker]
    have hmarker : tryParseWalMarker crc (body ++ bytes ++ tail) body.length =
      some (ofBe offset, (body ++ bytes).length) := by
      rw [tryParseWalMarker, hframe.drop]
      simp [hlen]
    rw [append_assoc, ih, ← append_assoc, decodeFrom_marker hnone hmarker hplaced]

/-- Lengths and counts fit in four bytes, versions in eight. -/
def BatchOp.Fits : BatchOp → Prop
  | .put key value => key.length < 256 ^ 4 ∧ value.length < 256 ^ 4
  | .delete key => key.length < 256 ^ 4
  | .deleteKeys keys => keys.length < 256 ^ 4 ∧ ∀ k ∈ keys, k.length < 256 ^ 4

structure MergeRec.Fits (rec : MergeRec) : Prop where
  key : rec.key.length < 256 ^ 4
  value : ∀ v, rec.value = some v → v.length < 256 ^ 4
  version : rec.version < 256 ^ 8

/-- The fields fit. -/
def WalRecord.FieldsFit : WalRecord → Prop
  | .put key value version =>
    key.length < 256 ^ 4 ∧ value.length < 256 ^ 4 ∧ version < 256 ^ 8
  | .delete key version => key.length < 256 ^ 4 ∧ version < 256 ^ 8
  | .deleteRange start stop keys version => start.length < 256 ^ 4 ∧ stop.length < 256 ^ 4 ∧
      (keys.length < 256 ^ 4 ∧ ∀ k ∈ keys, k.length < 256 ^ 4) ∧ version < 256 ^ 8
  | .batch version ops => version < 256 ^ 8 ∧ ops.length < 256 ^ 4 ∧ ∀ op ∈ ops, op.Fits
  | .mergeBatch ops => ops.length < 256 ^ 4 ∧ ∀ op ∈ ops, op.Fits

/-- The fields fit, and so does the payload. -/
structure WalRecord.Fits (record : WalRecord) : Prop where
  fields : record.FieldsFit
  payload : (encodeWalRecord record).length < 256 ^ 4

theorem reads_tag {α : Type} {next : Nat → Reader α} {tag : UInt8} {a : α}
    (h : Reads (next tag.toNat) a bytes) : Reads (andThen readU8 next) a (tag :: bytes) := by
  have hbe : be 1 tag.toNat = [tag] := by simp [be]
  have htag : Reads readU8 tag.toNat (be 1 tag.toNat) := reads_number tag.toNat_lt
  rw [hbe] at htag
  exact htag.andThen h

theorem reads_list {α : Type} {read : Reader α} {put : α → Bytes} {items : List α}
    (hcount : items.length < 256 ^ 4) (h : ∀ a ∈ items, Reads read a (put a)) :
    Reads (readList read) items (putList put items) := (reads_number hcount).andThen (reads_times h)

theorem reads_optBytes {v : Option Bytes} (h : ∀ b, v = some b → b.length < 256 ^ 4) :
    Reads readOptBytes v (putOptBytes v) := by
  cases v with
  | none => exact reads_tag (reads_result none)
  | some b => exact reads_tag (reads_prefixed (h b rfl)).then_result

theorem reads_batchOp {op : BatchOp} (h : op.Fits) : Reads decodeBatchOp op (encodeBatchOp op) := by
  cases op with
  | put key value => exact reads_tag ((reads_prefixed h.1).andThen (reads_prefixed h.2).then_result)
  | delete key => exact reads_tag (reads_prefixed h).then_result
  | deleteKeys keys =>
    exact reads_tag (reads_list h.1 fun k hk => reads_prefixed (h.2 k hk)).then_result

theorem reads_mergeRec {rec : MergeRec} (h : rec.Fits) : Reads decodeMergeRec rec (encodeMergeRec rec) :=
  (reads_prefixed h.key).andThen ((reads_optBytes h.value).andThen (reads_number h.version).then_result)

theorem reads_walRecord (h : record.FieldsFit) : Reads readWalRecord record (encodeWalRecord record) := by
  cases record with
  | put key value version =>
    exact reads_tag ((reads_prefixed h.1).andThen ((reads_prefixed h.2.1).andThen (reads_number h.2.2).then_result))
  | delete key version => exact reads_tag ((reads_prefixed h.1).andThen (reads_number h.2).then_result)
  | deleteRange start stop keys version =>
    exact reads_tag ((reads_prefixed h.1).andThen ((reads_prefixed h.2.1).andThen
      ((reads_list h.2.2.1.1 fun k hk => reads_prefixed (h.2.2.1.2 k hk)).andThen
      (reads_number h.2.2.2).then_result)))
  | batch version ops =>
    exact reads_tag ((reads_number h.1).andThen
      (reads_list h.2.1 fun op hop => reads_batchOp (h.2.2 op hop)).then_result)
  | mergeBatch ops =>
    exact reads_tag (reads_list h.1 fun op hop => reads_mergeRec (h.2 op hop)).then_result

theorem decodeWalRecord_encode (h : record.FieldsFit) :
    decodeWalRecord (encodeWalRecord record) = some record := by
  have hreads := reads_walRecord h []
  rw [append_nil] at hreads
  unfold decodeWalRecord
  rw [hreads]

theorem isFrame_encode (h : payload.length < 256 ^ 4) : IsFrame crc (encodeFrame crc payload) payload := by
  intro rest
  have hsum : (crc payload).toNat < 256 ^ 4 := (crc payload).toNat_lt
  have hlength : (encodeFrame crc payload).length = 8 + payload.length := by
    simp [encodeFrame]
    omega
  have hsplit : encodeFrame crc payload ++ rest = be 4 payload.length ++
    (be 4 (crc payload).toNat ++ (payload ++ rest)) := by
    unfold encodeFrame
    rw [append_assoc, append_assoc]
  have hfour : (encodeFrame crc payload ++ rest).take 4 = be 4 payload.length := by
    rw [hsplit, take_be]
  have hnext : ((encodeFrame crc payload ++ rest).drop 4).take 4 = be 4 (crc payload).toNat := by
    rw [hsplit, drop_be, take_be]
  have hbody : (encodeFrame crc payload ++ rest).drop 8 = payload ++ rest := by
    rw [show 8 = 4 + 4 from rfl, ← drop_drop, hsplit, drop_be, drop_be]
  unfold parseFrame walFrameHeaderBytes
  dsimp only
  rw [if_neg (by rw [length_append, hlength]; omega), hfour, hnext, ofBe_be_of_lt h,
    ofBe_be_of_lt hsum, if_neg (by rw [length_append, hlength]; omega), hbody, take_left,
    if_pos rfl, hlength]

variable {start : Nat}

variable (crc)

/-- The positions that the decoder comes to from a position on. -/
inductive Reached (body : Bytes) (start : Nat) : Nat → Prop
  | start : Reached body start start
  | record {pos next : Nat} {record : WalRecord} (h : Reached body start pos)
      (hframe : tryParseWalFrame crc body pos = some (record, next)) : Reached body start next
  | marker {pos next claimed : Nat} (h : Reached body start pos)
      (hmarker : tryParseWalMarker crc body pos = some (claimed, next)) : Reached body start next

/-- What follows a position holds no marker at the offset it claims except at its start, and the
decoder comes to no marker at another offset. -/
structure QuietTail (body : Bytes) (start : Nat) : Prop where
  unplaced : ∀ pos, start < pos → isPlacedMarker crc body pos = false
  placed : ∀ pos claimed next, Reached crc body start pos →
    tryParseWalMarker crc body pos = some (claimed, next) → claimed = walHeaderLen + pos

variable {crc}

theorem Reached.le (h : Reached crc body start pos) : start ≤ pos := by
  induction h with
  | start => exact le_rfl
  | record _ hframe ih => exact ih.trans (lt_of_tryParseWalFrame hframe).1.le
  | marker _ hmarker ih => exact ih.trans (lt_of_tryParseWalMarker hmarker).1.le

theorem QuietTail.walMarkerAfter (h : QuietTail crc body start)
    (hpos : start ≤ pos) : walMarkerAfter crc body (pos + 1) = none := by
  unfold Lsm.walMarkerAfter
  rw [find?_eq_none]
  intro p hp
  rw [mem_range'_1] at hp
  rw [h.unplaced p (by omega)]
  exact Bool.false_ne_true

theorem take_frame (body : Bytes) (pos size : Nat) :
    body.take pos ++ (body.drop pos).take size = body.take (pos + size) := take_add.symm

/-- What the decoder takes from a frame boundary on ends at a frame boundary. -/
theorem decodeLoop_framed {fuel consumed : Nat} {records more : List WalRecord}
    (h : decodeLoop crc body fuel pos = .ok (more, consumed)) (hpos : pos ≤ body.length)
    (hframed : Framed crc (body.take pos) records) :
    ∃ stop, consumed = walHeaderLen + stop ∧ pos ≤ stop ∧ Framed crc (body.take stop) (records ++ more) := by
  induction fuel generalizing pos records more with
  | zero =>
    cases h
    exact ⟨pos, rfl, le_rfl, by rwa [append_nil]⟩
  | succ fuel ih =>
    rw [decodeLoop] at h
    split at h
    · cases h
      exact ⟨pos, rfl, le_rfl, by rwa [append_nil]⟩
    split at h
    · rename_i record next hframe
      cases hrest : decodeLoop crc body fuel next with
      | error e =>
        rw [hrest] at h
        cases h
      | ok found =>
        rw [hrest] at h
        cases h
        obtain ⟨payload, size, hparse, hrecord, rfl⟩ := tryParseWalFrame_some hframe
        have hgrown := hframed.record (isFrame_take hparse) hrecord
        rw [take_frame] at hgrown
        obtain ⟨stop, hstop, hle, hall⟩ := ih hrest (lt_of_tryParseWalFrame hframe).2 hgrown
        exact ⟨stop, hstop, by omega, by rwa [append_assoc] at hall⟩
    split at h
    · rename_i claimed next hmarker
      split at h
      · rename_i hplaced
        obtain ⟨offset, size, hparse, hlen, hclaimed, rfl⟩ := tryParseWalMarker_some hmarker
        have hgrown := hframed.marker (isFrame_take hparse) hlen
          (by rw [← hclaimed, hplaced, length_take_of_le hpos])
        rw [take_frame] at hgrown
        obtain ⟨stop, hstop, hle, hall⟩ := ih h (lt_of_tryParseWalMarker hmarker).2 hgrown
        exact ⟨stop, hstop, by omega, hall⟩
      · cases h
    split at h
    · cases h
    · cases h
      exact ⟨pos, rfl, le_rfl, by rwa [append_nil]⟩

/-- The decoder refuses no quiet tail. -/
theorem QuietTail.decodeFrom (hquiet : QuietTail crc body start) (hreached : Reached crc body start pos)
    (hpos : pos ≤ body.length) : ∃ found, decodeFrom crc body pos = .ok found := by
  -- each frame leaves fewer bytes
  induction hn : body.length - pos using Nat.strong_induction_on generalizing pos with
  | _ n ih =>
    rcases Nat.eq_or_lt_of_le hpos with rfl | hlt
    · exact ⟨_, decodeFrom_end body⟩
    cases hframe : tryParseWalFrame crc body pos with
    | some found =>
      have hnext := lt_of_tryParseWalFrame hframe
      obtain ⟨rest, hrest⟩ := ih _ (by omega) (hreached.record hframe) hnext.2 rfl
      rw [decodeFrom_record hframe, hrest]
      exact ⟨_, rfl⟩
    | none =>
      cases hmarker : tryParseWalMarker crc body pos with
      | some found =>
        have hnext := lt_of_tryParseWalMarker hmarker
        rw [decodeFrom_marker hframe hmarker (hquiet.placed pos _ _ hreached hmarker)]
        exact ih _ (by omega) (hreached.marker hmarker) hnext.2 rfl
      | none =>
        rw [decodeFrom_unparsed hlt hframe hmarker, hquiet.walMarkerAfter hreached.le]
        exact ⟨_, rfl⟩

variable (crc)

/-- The synced bytes of a segment and the records in them: batches are written behind each other, and a
crash leaves a tail that the next open decodes and cuts. -/
inductive WalRun : Bytes → List WalRecord → Prop
  | header : WalRun encodeWalHeader []
  | batch {file : Bytes} {records : List WalRecord} (h : WalRun file records) (withMarker : Bool)
      (added : List WalRecord) (hfits : ∀ r ∈ added, r.Fits) (hlen : file.length < 256 ^ 8) :
      WalRun (writeBatch crc file withMarker added) (records ++ added)
  | recover {file tail : Bytes} {records decoded : List WalRecord} {consumed : Nat}
      (h : WalRun file records) (hdecode : decodeWal crc (file ++ tail) = .ok (decoded, consumed)) :
      WalRun ((file ++ tail).take consumed) decoded

variable {crc}

theorem decodeWal_header (body : Bytes) : decodeWal crc (encodeWalHeader ++ body) = decodeFrom crc body 0 := rfl

theorem Framed.records {records : List WalRecord} (h : Framed crc body records)
    {added : List WalRecord} (hfits : ∀ r ∈ added, r.Fits) :
    Framed crc (body ++ added.flatMap (encodeWal crc)) (records ++ added) := by
  induction added generalizing body records with
  | nil =>
    rw [flatMap_nil, append_nil, append_nil]
    exact h
  | cons r added ih =>
    have hr := hfits r mem_cons_self
    have hone := h.record (isFrame_encode hr.payload) (decodeWalRecord_encode hr.fields)
    have hall := ih hone fun s hs => hfits s (mem_cons_of_mem _ hs)
    rw [append_assoc, append_assoc] at hall
    exact hall

theorem Framed.writeBatch {records added : List WalRecord} (h : Framed crc body records)
    (withMarker : Bool) (hfits : ∀ r ∈ added, r.Fits) (hlen : (encodeWalHeader ++ body).length < 256 ^ 8) :
    ∃ body', writeBatch crc (encodeWalHeader ++ body) withMarker added = encodeWalHeader ++ body' ∧
      Framed crc body' (records ++ added) := by
  unfold Lsm.writeBatch
  cases withMarker with
  | false =>
    refine ⟨_, ?_, h.records hfits⟩
    rw [if_neg Bool.false_ne_true, nil_append, append_assoc]
  | true =>
    have hplaced : ofBe (be 8 (encodeWalHeader ++ body).length) = walHeaderLen + body.length := by
      rw [ofBe_be_of_lt hlen, length_append]
      rfl
    have hmarked := h.marker (@isFrame_encode crc (walMarkerTag :: be 8 (encodeWalHeader ++ body).length)
      (by simp)) (length_be 8 _) hplaced
    refine ⟨_, ?_, hmarked.records hfits⟩
    rw [if_pos rfl, append_assoc, append_assoc]
    rfl

theorem start_eq (body : Bytes) : (encodeWalHeader ++ body).length - walHeaderLen = body.length := by
  rw [length_append]
  exact Nat.add_sub_cancel_left ..

/-- The synced bytes are a header and frames of the records. -/
theorem WalRun.framed {file : Bytes} {records : List WalRecord} (h : WalRun crc file records) :
    ∃ body, file = encodeWalHeader ++ body ∧ Framed crc body records := by
  induction h with
  | header => exact ⟨[], rfl, .nil⟩
  | batch _ withMarker added hfits hlen ih =>
    obtain ⟨body, rfl, hframed⟩ := ih
    exact hframed.writeBatch withMarker hfits hlen
  | @recover file tail records decoded consumed _ hdecode ih =>
    obtain ⟨body, rfl, -⟩ := ih
    rw [append_assoc] at hdecode ⊢
    obtain ⟨stop, rfl, -, hframed⟩ := decodeLoop_framed hdecode (Nat.zero_le _) .nil
    have hlength : walHeaderLen = encodeWalHeader.length := rfl
    exact ⟨(body ++ tail).take stop, by rw [hlength, take_length_add_append], hframed⟩

/-- In every run of a segment, what was synced is decoded first from whatever a crash leaves, if the
tail is quiet, and the cut file goes on as such a run; a frame that does not parse before a marker at its
own offset is an error. -/
theorem decode_wal_tells_tail_from_damage (crc : Bytes → UInt32) (file : Bytes)
    (records : List WalRecord) (h : WalRun crc file records) :
    (∀ tail, QuietTail crc ((file ++ tail).drop walHeaderLen) (file.length - walHeaderLen) →
      ∃ more consumed, decodeWal crc (file ++ tail) = .ok (records ++ more, consumed) ∧
        file.length ≤ consumed ∧ WalRun crc ((file ++ tail).take consumed) (records ++ more)) ∧
    ∀ (intact damaged : Bytes) (before : List WalRecord) (marker : Nat), Framed crc intact before →
      damaged ≠ [] → tryParseWalFrame crc (intact ++ damaged) intact.length = none →
      tryParseWalMarker crc (intact ++ damaged) intact.length = none → intact.length < marker →
      isPlacedMarker crc (intact ++ damaged) marker = true → ∃ found, decodeWal crc
        (encodeWalHeader ++ (intact ++ damaged)) = .error (corruptBeforeMarker intact.length found) := by
  constructor
  · intro tail hquiet
    obtain ⟨body, rfl, hframed⟩ := h.framed
    have hquiet' : QuietTail crc (body ++ tail) body.length := by
      rw [append_assoc, start_eq] at hquiet
      exact hquiet
    have hlen : body.length ≤ (body ++ tail).length := by simp
    obtain ⟨⟨more, consumed⟩, hfound⟩ := hquiet'.decodeFrom .start hlen
    obtain ⟨stop, rfl, hle, -⟩ := decodeLoop_framed hfound hlen (by rwa [take_left])
    have hdecode : decodeWal crc (encodeWalHeader ++ body ++ tail) =
      .ok (records ++ more, walHeaderLen + stop) := by
      rw [append_assoc, decodeWal_header, hframed.decodeFrom, hfound]
      rfl
    refine ⟨more, walHeaderLen + stop, hdecode, ?_, h.recover hdecode⟩
    rw [length_append]
    exact Nat.add_le_add_left hle _
  · intro intact damaged before marker hframed hne hframe hmarker hlt hplaced
    have hpos : intact.length < (intact ++ damaged).length := by
      have := length_pos_iff.mpr hne
      rw [length_append]
      omega
    have hbound : marker < (intact ++ damaged).length := by
      obtain ⟨found, hfound, -⟩ := (Option.any_eq_true _ _).mp hplaced
      have := lt_of_tryParseWalMarker hfound
      omega
    -- the search finds this marker or one before it
    have hsome : (walMarkerAfter crc (intact ++ damaged) (intact.length + 1)).isSome := by
      unfold walMarkerAfter
      rw [find?_isSome]
      exact ⟨marker, mem_range'_1.mpr ⟨by omega, by omega⟩, hplaced⟩
    obtain ⟨found, hfound⟩ := Option.isSome_iff_exists.mp hsome
    refine ⟨found, ?_⟩
    rw [decodeWal_header, hframed.decodeFrom, decodeFrom_unparsed hpos hframe hmarker, hfound]
    rfl

/-- Fewer bytes than a frame's header are a quiet tail. -/
theorem quietTail_short {tail : Bytes} (h : tail.length < 8) : QuietTail crc (body ++ tail) body.length := by
  have hnone (pos : Nat) (hpos : body.length ≤ pos) : parseFrame crc ((body ++ tail).drop pos) = none := by
    unfold parseFrame walFrameHeaderBytes
    rw [if_pos]
    rw [length_drop, length_append]
    omega
  constructor
  · intro pos hpos
    unfold isPlacedMarker tryParseWalMarker
    rw [hnone pos hpos.le]
    rfl
  · intro pos claimed next hreached hmarker
    obtain ⟨offset, size, hparse, -⟩ := tryParseWalMarker_some hmarker
    rw [hnone pos hreached.le] at hparse
    cases hparse

def samplePut : WalRecord := .put [1] [2] 3

theorem samplePut_fits : samplePut.Fits := ⟨⟨by decide, by decide, by decide⟩, by decide⟩

/-- A put whose value is a marker for the offset at which the value lies in the first frame of a
segment. -/
def markerPut : WalRecord := .put [] (encodeWalMarker crc32 22) 1

theorem decode_wal_tells_tail_from_damage_put :
    ∃ more consumed, decodeWal crc32 (writeBatch crc32 encodeWalHeader false [samplePut] ++ [7, 7]) =
      .ok ([] ++ [samplePut] ++ more, consumed) := by
  have hrun : WalRun crc32 (writeBatch crc32 encodeWalHeader false [samplePut]) ([] ++ [samplePut]) := by
    refine WalRun.header.batch false [samplePut] (fun r hr => ?_) (by decide)
    rw [mem_singleton.mp hr]
    exact samplePut_fits
  obtain ⟨htail, -⟩ := decode_wal_tells_tail_from_damage crc32 _ _ hrun
  obtain ⟨more, consumed, hdecode, -⟩ := htail [7, 7]
    (@quietTail_short crc32 (encodeWal crc32 samplePut ++ []) [7, 7] (by decide))
  exact ⟨more, consumed, hdecode⟩

/-- A segment with a synced header, and of the first batch all but the last byte: the put was never
synced, but its value is taken for a durable marker and the segment does not open. -/
theorem torn_put_refused : WalRun crc32 encodeWalHeader [] ∧ markerPut.Fits ∧
    (writeBatch crc32 encodeWalHeader false [markerPut]).dropLast = encodeWalHeader ++
    (encodeWal crc32 markerPut).dropLast ∧
    ∃ e, decodeWal crc32 (encodeWalHeader ++ (encodeWal crc32 markerPut).dropLast) = .error e := by
  refine ⟨.header, ⟨⟨by decide, by decide +kernel, by decide⟩, by decide +kernel⟩, by decide +kernel, ?_⟩
  have herror : (decodeWal crc32 (encodeWalHeader ++ (encodeWal crc32 markerPut).dropLast)).isOk =
      false := by decide +kernel
  cases hdecode : decodeWal crc32 (encodeWalHeader ++ (encodeWal crc32 markerPut).dropLast) with
  | error e => exact ⟨e, rfl⟩
  | ok found =>
    rw [hdecode] at herror
    cases herror

/-- A segment that is cut after what was synced, over any batches and recoveries, decodes to just the
records written, to its last byte. -/
theorem wal_segment_reads_back (crc : Bytes → UInt32) (file : Bytes) (records : List WalRecord)
    (h : WalRun crc file records) : decodeWal crc file = .ok (records, file.length) := by
  obtain ⟨body, rfl, hframed⟩ := h.framed
  have hdecode := hframed.decodeFrom []
  rw [append_nil, decodeFrom_end] at hdecode
  rw [decodeWal_header, hdecode, Except.map, append_nil, length_append]
  rfl

theorem wal_segment_reads_back_put : decodeWal crc32 (writeBatch crc32 encodeWalHeader true [samplePut]) =
    .ok ([samplePut], (writeBatch crc32 encodeWalHeader true [samplePut]).length) :=
  wal_segment_reads_back crc32 _ _
    (WalRun.header.batch true [samplePut] (forall_mem_singleton.mpr samplePut_fits) (by decide))

end AnimusDb.Lsm
