import Fabric.Proof.Validation.Serializability

/-! # The update batch refines sequential execution

A value write sets the value and keeps the metadata, a
metadata write keeps the value and needs the key to exist, a delete removes both. -/

namespace Fabric.Proof.Validation

open Lib Fabric.Ledger Fabric.Ledger.Validation List Option VersionedValue WriteOp

variable {f : KeyOpsFlag} {tx : Transaction} {v : Validated}

def WriteOp.asValue : WriteOp → Option (Option Bytes)
  | .value v => some v
  | .metadata _ => none

def WriteOp.asMetadata : WriteOp → Option (Option Bytes)
  | .value _ => none
  | .metadata m => some m

def lastOf {α : Type} (f : WriteOp → Option α) (ops : List WriteOp) : Option α :=
  ops.foldl (fun found op => (f op).or found) none

def execOps (h : Height) (ops : List WriteOp) (entry : Option VersionedValue) : Option VersionedValue :=
  match lastOf asValue ops, lastOf asMetadata ops with
  | some none, _ => none
  | some (some v), none => some ⟨some v, entry.bind (·.metadata), h⟩
  | some (some v), some m => some ⟨some v, m, h⟩
  | none, some m => entry.map fun vv => ⟨vv.value, m, h⟩
  | none, none => entry

abbrev WorldState := CollKey → Option VersionedValue

def execTx (codec : Codec) (blockNum : Nat) (s : WorldState) (tx : Transaction) : WorldState := fun k =>
  execOps (committingTxHeight blockNum tx) (opsOn k (writeOps codec tx.rwset)) (s k)

def shownEntry (db : DB) (u : PubAndHashUpdates) (k : CollKey) : Option VersionedValue :=
  overlayEntry isDelete (u.get k) (latestState db k)

def marked (u : PubAndHashUpdates) (k : CollKey) : Bool := (u.get k).any isDelete

def WriteOp.flag : WriteOp → KeyOpsFlag
  | .value none => keyDelete
  | .value (some _) => upsertVal
  | .metadata none => metadataDelete
  | .metadata (some _) => metadataUpdate

def flags (ops : List WriteOp) : KeyOpsFlag :=
  ops.foldl (fun sum op => sum + op.flag) 0

inductive Reading where
  | delete
  | both
  | value
  | metadata
  deriving DecidableEq

/-- What a sum of flags is taken for. -/
def reading (f : KeyOpsFlag) : Reading :=
  if f &&& keyDelete == keyDelete then .delete
  else if f &&& upsertVal == upsertVal && (f &&& metadataUpdate == metadataUpdate || f &&& metadataDelete == metadataDelete) then .both
  else if f ||| upsertVal == upsertVal then .value
  else .metadata

/-- The writes of a key do what the sum of their flags is taken for; a metadata write finds no mark of a delete. -/
def ReadAs (h : Height) (ops : List WriteOp) (entry : Option VersionedValue) (marker : Bool) : Prop :=
  let set := lastOf (·.asMetadata.join) ops
  match reading (flags ops) with
  | .delete => execOps h ops entry = none
  | .both => ∃ v, lastOf (·.asValue.join) ops = some v ∧ execOps h ops entry = some ⟨some v, set, h⟩
  | .value => ∃ v, lastOf (·.asValue.join) ops = some v ∧ execOps h ops entry = some ⟨some v, entry.bind (·.metadata), h⟩
  | .metadata => marker = false ∧ execOps h ops entry = entry.map fun vv => ⟨vv.value, set, h⟩

def collected (ops : List WriteOp) : KeyOps :=
  ops.foldl (fun keyops op => op.apply keyops) ⟨0, none, none⟩

theorem collected_eq (ops : List WriteOp) :
    collected ops = ⟨flags ops, lastOf (·.asValue.join) ops, lastOf (·.asMetadata.join) ops⟩ := by
  induction ops using reverseRecOn with
  | nil => rfl
  | append_singleton ops op ih =>
    simp only [collected, flags, lastOf, foldl_append, foldl_cons, foldl_nil] at ih ⊢
    rw [ih]
    rcases op with (_ | v) | (_ | m) <;> rfl

theorem MarkersClean.retrieveLatestMetadata {u : PubAndHashUpdates} (clean : MarkersClean u) (db : DB) (k : CollKey) :
    retrieveLatestMetadata k u db = (shownEntry db u k).bind (·.metadata) := by
  unfold Validation.retrieveLatestMetadata shownEntry
  cases pending : u.get k with
  | none => simp [latestMetadata_eq]
  | some vv =>
    cases marker : vv.isDelete with
    | true => simp [marker, clean k vv pending marker]
    | false => simp [marker]

theorem retrieveLatestState_value (u : PubAndHashUpdates) (db : DB) (k : CollKey) : (retrieveLatestState k u db).map (·.value) =
    if marked u k then some none else (shownEntry db u k).map (·.value) := by
  unfold retrieveLatestState shownEntry marked
  cases pending : u.get k with
  | none => simp
  | some vv =>
    cases marker : vv.isDelete with
    | true => simp [marker, isNone_iff_eq_none.mp marker]
    | false => simp [marker]

theorem shownEntry_live {db : DB} {u : PubAndHashUpdates} {k : CollKey} {vv : VersionedValue}
    (shown : shownEntry db u k = some vv) : ∃ v, vv.value = some v := by
  rw [← isSome_iff_exists]
  unfold shownEntry at shown
  cases pending : u.get k with
  | none =>
    simp only [pending, overlayEntry_none, latestState] at shown
    split at shown
    · simpa [isDelete, isSome_iff_ne_none] using db.pub.live _ _ shown
    · simpa [isDelete, isSome_iff_ne_none] using db.hashed.live _ _ shown
  | some vv' =>
    simp only [pending, overlayEntry_some, ite_none_left_eq_some, some.injEq] at shown
    obtain ⟨kept, rfl⟩ := shown
    simpa [isDelete, isSome_iff_ne_none] using kept

section

variable {u : PubAndHashUpdates} {db : DB} {k : CollKey} {op : KeyOps} {h : Height} {ops : List WriteOp} {entry : Option VersionedValue}

theorem reading_eq (op : KeyOps) : reading op.flag =
    if op.isDelete then .delete else if op.isUpsertAndMetadataUpdate then .both else if op.isOnlyUpsert then .value else .metadata := rfl

theorem isDelete_iff (op : KeyOps) : op.isDelete = true ↔ reading op.flag = .delete := by
  rw [reading_eq]
  split_ifs <;> simp_all

theorem finalKeyOps_eq (u : PubAndHashUpdates) (db : DB) (k : CollKey) (op : KeyOps) : finalKeyOps u db k op = match reading op.flag with
    | .delete | .both => some op
    | .value => some { op with metadata := retrieveLatestMetadata k u db }
    | .metadata => ((retrieveLatestState k u db).map (·.value)).map fun value => { op with value } := by
  rw [reading_eq, finalKeyOps]
  cases op.isDelete <;> cases op.isUpsertAndMetadataUpdate <;> cases op.isOnlyUpsert <;> try rfl
  cases retrieveLatestState k u db <;> rfl

/-- What a final operation leaves of a key. -/
def Leaves (db : DB) (u : PubAndHashUpdates) (k : CollKey) (h : Height) (final : Option KeyOps) (entry : Option VersionedValue) : Prop :=
  (∀ op, final = some op → puttable op) ∧ entry = overlayEntry isDelete ((final.map (written h)).or (u.get k)) (latestState db k)

theorem leaves_put (kept : op.isDelete = false) :
    Leaves db u k h (some op) entry ↔ ∃ v, op.value = some v ∧ entry = some ⟨some v, op.metadata, h⟩ := by
  cases value : op.value with
  | none => simp [Leaves, puttable, kept, value]
  | some v => simp [Leaves, puttable, kept, value, written, isDelete]

theorem leaves_iff_readAs (clean : MarkersClean u) : Leaves db u k h (finalKeyOps u db k (collected ops)) (execOps h ops (shownEntry db u k)) ↔
    ReadAs h ops (shownEntry db u k) (marked u k) := by
  have deleted (value metadata) := isDelete_iff ⟨flags ops, value, metadata⟩
  rw [collected_eq, finalKeyOps_eq, retrieveLatestState_value, clean.retrieveLatestMetadata]
  unfold ReadAs
  cases reads : reading (flags ops) <;> simp only [reads, reduceCtorEq, iff_true, iff_false, Bool.not_eq_true] at deleted ⊢
  case delete => simp [Leaves, puttable, written, deleted, isDelete]
  case both => exact leaves_put (deleted ..)
  case value => exact leaves_put (deleted ..)
  case metadata =>
    cases marker : marked u k with
    | true => simp [Leaves, puttable, deleted]
    | false =>
      cases shown : shownEntry db u k with
      | none => simp [Leaves, show overlayEntry isDelete (u.get k) (latestState db k) = none from shown]
      | some vv =>
        obtain ⟨v, value⟩ := shownEntry_live shown
        simp [leaves_put (deleted ..), value]

/-- A metadata write that finds the mark of a delete has no value to put. -/
theorem unmarked_of_puts (puts : ∀ op, finalKeyOps u db k (collected ops) = some op → puttable op)
    (kind : reading (flags ops) = .metadata) : marked u k = false := by
  have kept (value metadata) := isDelete_iff ⟨flags ops, value, metadata⟩
  simp only [kind, reduceCtorEq, iff_false, Bool.not_eq_true] at kept
  rw [collected_eq, finalKeyOps_eq, retrieveLatestState_value] at puts
  cases marker : marked u k with
  | false => rfl
  | true => simp [kind, marker, puttable, kept] at puts

theorem marked_of_readAs (clean : MarkersClean u) (reads : ReadAs h ops (shownEntry db u k) (marked u k)) :
    (((finalKeyOps u db k (collected ops)).map (written h)).or (u.get k)).any isDelete = decide (reading (flags ops) = .delete) := by
  have puts := ((leaves_iff_readAs clean).mpr reads).1
  cases final : finalKeyOps u db k (collected ops) with
  | none =>
    have kind : reading (flags ops) = .metadata := by
      rw [collected_eq, finalKeyOps_eq] at final
      split at final <;> simp_all
    exact (unmarked_of_puts puts kind).trans (by simp [kind])
  | some op =>
    have flag : op.flag = flags ops := by
      rw [collected_eq, finalKeyOps_eq] at final
      split at final <;> first | cases final; rfl | skip
      obtain ⟨_, _, rfl⟩ := map_eq_some_iff.mp final
      rfl
    have fits := puts op final
    rw [← flag, Bool.eq_iff_iff, decide_eq_true_iff, ← isDelete_iff]
    unfold puttable at fits
    cases deleted : op.isDelete <;> simp_all [written, isDelete, isSome_iff_ne_none]

end

/-- A transaction names each key at most once in its writes and at most once in its metadata writes. -/
def WritesOnce (codec : Codec) (rwset : TxRwSet) : Prop :=
  (((writeOps codec rwset).filter (·.2.asValue.isSome)).map (·.1)).Nodup ∧
    (((writeOps codec rwset).filter (·.2.asMetadata.isSome)).map (·.1)).Nodup

instance (codec : Codec) (rwset : TxRwSet) : Decidable (WritesOnce codec rwset) :=
  inferInstanceAs (Decidable (_ ∧ _))

inductive OpShape : List WriteOp → Prop where
  | nil : OpShape []
  | value (v : Option Bytes) : OpShape [.value v]
  | metadata (m : Option Bytes) : OpShape [.metadata m]
  | valueMetadata (v m : Option Bytes) : OpShape [.value v, .metadata m]
  | metadataValue (v m : Option Bytes) : OpShape [.metadata m, .value v]

private theorem length_opsOn_le_one (p : WriteOp → Bool) {ops : List (CollKey × WriteOp)}
    (once : ((ops.filter (p ·.2)).map (·.1)).Nodup) (k : CollKey) : ((opsOn k ops).filter p).length ≤ 1 := by
  have atMost := nodup_iff_count_le_one.mp once k
  rw [count_eq_countP, countP_map, countP_filter] at atMost
  rw [opsOn, List.filter_map, length_map, List.filter_filter, ← countP_eq_length_filter]
  refine le_trans (le_of_eq (countP_congr fun e _ => ?_)) atMost
  simp only [Function.comp, Bool.and_eq_true, beq_iff_eq, decide_eq_true_eq]
  exact and_comm

theorem WritesOnce.shape {codec : Codec} {rwset : TxRwSet} (once : WritesOnce codec rwset) (k : CollKey) :
    OpShape (opsOn k (writeOps codec rwset)) := by
  have values := length_opsOn_le_one (·.asValue.isSome) once.1 k
  have metadata := length_opsOn_le_one (·.asMetadata.isSome) once.2 k
  generalize opsOn k (writeOps codec rwset) = ops at values metadata
  match ops with
  | [] => exact .nil
  | [.value v] => exact .value v
  | [.metadata m] => exact .metadata m
  | [.value v, .metadata m] => exact .valueMetadata v m
  | [.metadata m, .value v] => exact .metadataValue v m
  | [.value _, .value _] => simp [asValue] at values
  | [.metadata _, .metadata _] => simp [asMetadata] at metadata
  | a :: b :: c :: rest =>
    cases a <;> cases b <;> cases c <;> simp [asValue, asMetadata] at values metadata

/-- The flags of writes that are made once tell which of them there are. -/
theorem OpShape.spec {ops : List WriteOp} (shape : OpShape ops) (named : ops ≠ []) :
    lastOf (·.asValue.join) ops = (lastOf asValue ops).join ∧ lastOf (·.asMetadata.join) ops = (lastOf asMetadata ops).join ∧
      (lastOf asValue ops = none → (lastOf asMetadata ops).isSome) ∧
      reading (flags ops) = match lastOf asValue ops, lastOf asMetadata ops with
        | some none, _ => .delete
        | some (some _), some _ => .both
        | some (some _), none => .value
        | none, _ => .metadata := by
  cases shape with
  | nil => exact absurd rfl named
  | value v => cases v <;> exact ⟨rfl, rfl, by simp [lastOf, asValue], by simp only [flags, foldl, WriteOp.flag]; rfl⟩
  | metadata m => cases m <;> exact ⟨rfl, rfl, fun _ => rfl, by simp only [flags, foldl, WriteOp.flag]; rfl⟩
  | valueMetadata v m => cases v <;> cases m <;> exact ⟨rfl, rfl, fun _ => rfl, by simp only [flags, foldl, WriteOp.flag]; rfl⟩
  | metadataValue v m => cases v <;> cases m <;> exact ⟨rfl, rfl, fun _ => rfl, by simp only [flags, foldl, WriteOp.flag]; rfl⟩

theorem OpShape.readAs_iff {ops : List WriteOp} (shape : OpShape ops) (named : ops ≠ []) (h : Height) (entry : Option VersionedValue)
    (marker : Bool) : ReadAs h ops entry marker ↔ (lastOf asValue ops = none → marker = false) := by
  obtain ⟨values, metadata, either, kind⟩ := shape.spec named
  unfold ReadAs execOps
  rw [kind, values, metadata]
  revert either
  rcases lastOf asValue ops with _ | _ | v <;> rcases lastOf asMetadata ops with _ | m <;> simp

section

variable {codec : Codec} {db : DB} {u u' : PubAndHashUpdates} {rwset : TxRwSet} {h : Height} {post : Bool}

theorem get_prepareTxOps_opsOn (k : CollKey) : (prepareTxOps codec rwset u db)[k]? = if opsOn k (writeOps codec rwset) = [] then none
      else finalKeyOps u db k (collected (opsOn k (writeOps codec rwset))) := by
  rw [get_prepareTxOps, applyTxRwset_eq, get_foldl_applyOp]
  split
  · simp
  · simp [collected, TxOps.getOrCreateKeyEntry]

/-- The writes of each key that a transaction names are read as they are meant. -/
def AllReadAs (codec : Codec) (h : Height) (rwset : TxRwSet) (s : WorldState) (marker : CollKey → Bool) : Prop :=
  ∀ k, opsOn k (writeOps codec rwset) ≠ [] → ReadAs h (opsOn k (writeOps codec rwset)) (s k) (marker k)

theorem leaves_prepareTxOps (clean : MarkersClean u) : (∀ k, Leaves db u k h (prepareTxOps codec rwset u db)[k]?
      (execOps h (opsOn k (writeOps codec rwset)) (shownEntry db u k))) ↔ AllReadAs codec h rwset (shownEntry db u) (marked u) := by
  refine forall_congr' fun k => ?_
  rw [get_prepareTxOps_opsOn]
  split
  case isTrue unnamed => simp [Leaves, unnamed, execOps, lastOf, shownEntry]
  case isFalse named => simp [named, leaves_iff_readAs clean]

theorem readAs_of_applyWriteSet (clean : MarkersClean u) (stored : u.applyWriteSet codec rwset h db post = .ok u')
    (shown : ∀ k, shownEntry db u' k = execOps h (opsOn k (writeOps codec rwset)) (shownEntry db u k)) :
    AllReadAs codec h rwset (shownEntry db u) (marked u) := by
  obtain ⟨puts, w⟩ := applyWriteSet_eq_ok stored
  refine (leaves_prepareTxOps clean).mp fun k => ⟨puts k, ?_⟩
  rw [← w.get]
  exact (shown k).symm

theorem applyWriteSet_of_readAs (clean : MarkersClean u) (reads : AllReadAs codec h rwset (shownEntry db u) (marked u)) (post : Bool) :
    ∃ u', u.applyWriteSet codec rwset h db post = .ok u' := by
  obtain ⟨u', stored, _⟩ := applyWriteSet_of_puttable h post fun k => ((leaves_prepareTxOps clean).mpr reads k).1
  exact ⟨u', stored⟩

def markAfter (ops : List WriteOp) (marker : Bool) : Bool :=
  if ops = [] then marker else reading (flags ops) = .delete

theorem shown_of_readAs (clean : MarkersClean u) (reads : AllReadAs codec h rwset (shownEntry db u) (marked u))
    (stored : u.applyWriteSet codec rwset h db post = .ok u') (k : CollKey) :
    shownEntry db u' k = execOps h (opsOn k (writeOps codec rwset)) (shownEntry db u k) ∧
      marked u' k = markAfter (opsOn k (writeOps codec rwset)) (marked u k) := by
  obtain ⟨_, w⟩ := applyWriteSet_eq_ok stored
  rw [shownEntry, marked, w.get]
  refine ⟨((leaves_prepareTxOps clean).mpr reads k).2.symm, ?_⟩
  rw [get_prepareTxOps_opsOn, markAfter]
  split
  case isTrue => rfl
  case isFalse named => exact marked_of_readAs clean (reads k named)

theorem WritesOnce.readAs (once : WritesOnce codec rwset) (stored : u.applyWriteSet codec rwset h db post = .ok u') :
    AllReadAs codec h rwset (shownEntry db u) (marked u) := by
  intro k named
  have puts (op : KeyOps) (final : finalKeyOps u db k (collected (opsOn k (writeOps codec rwset))) = some op) : puttable op :=
    (applyWriteSet_eq_ok stored).1 k op (by rw [get_prepareTxOps_opsOn, if_neg named, final])
  exact ((once.shape k).readAs_iff named _ _ _).mpr fun noValue =>
    unmarked_of_puts puts (by rw [((once.shape k).spec named).2.2.2, noValue])

end

/-- Whether the last transaction that names the key is read as a delete. -/
def markedAfter (codec : Codec) (txs : List Transaction) (k : CollKey) : Bool :=
  txs.foldl (fun marker tx => markAfter (opsOn k (writeOps codec tx.rwset)) marker) false

section

variable {codec : Codec} {db : DB} {blk : Block} {doMVCC : Bool} {txs : List Transaction}

/-- The updates show the state after the transactions, one by one, with marks for the keys deleted last. -/
structure Tracks (codec : Codec) (db : DB) (blockNum : Nat) (txs : List Transaction) (u : PubAndHashUpdates) : Prop where
  shown : shownEntry db u = txs.foldl (execTx codec blockNum) (latestState db)
  marked : marked u = markedAfter codec txs

theorem Tracks.initial (codec : Codec) (db : DB) (blockNum : Nat) : Tracks codec db blockNum [] newPubAndHashUpdates where
  shown := funext fun k => by simp [shownEntry, get_newPubAndHashUpdates]
  marked := funext fun k => by simp [Validation.marked, get_newPubAndHashUpdates, markedAfter]

theorem Tracks.step {blockNum : Nat} {u u' : PubAndHashUpdates} (tracks : Tracks codec db blockNum txs u) (clean : MarkersClean u)
    (reads : AllReadAs codec (committingTxHeight blockNum tx) tx.rwset (shownEntry db u) (Validation.marked u))
    (stored : u.applyWriteSet codec tx.rwset (committingTxHeight blockNum tx) db tx.containsPostOrderWrites = .ok u') :
    Tracks codec db blockNum (txs ++ [tx]) u' where
  shown := funext fun k => by
    rw [(shown_of_readAs clean reads stored k).1, tracks.shown]
    simp [execTx]
  marked := funext fun k => by
    rw [(shown_of_readAs clean reads stored k).2, tracks.marked]
    simp [markedAfter]

theorem Tracks.validated {v' : Validated} (tracks : Tracks codec db blk.num (validTxs txs v.codes) v.updates)
    (inv : BlockInvariant codec db blk.num doMVCC txs v) (step : validateAndApplyTx codec db doMVCC blk.num v tx = .ok v')
    (reads : validateEndorserTX codec db tx.rwset doMVCC v.updates = .ok .valid →
      AllReadAs codec (committingTxHeight blk.num tx) tx.rwset (shownEntry db v.updates) (Validation.marked v.updates)) :
    Tracks codec db blk.num (validTxs (txs ++ [tx]) v'.codes) v'.updates := by
  obtain ⟨code, ran, codes, ⟨rfl, stored⟩ | ⟨invalid, kept⟩⟩ := validateAndApplyTx_cases step
  · rw [codes, validTxs_concat inv.length, if_pos rfl]
    exact tracks.step inv.clean (reads ran) stored
  · rw [codes, validTxs_concat inv.length, if_neg invalid, append_nil, kept]
    exact tracks

theorem validateAndPrepareBatch_concat (run : validateAndPrepareBatch codec db { blk with txs } doMVCC = .ok v) (tx : Transaction) :
    validateAndPrepareBatch codec db { blk with txs := txs ++ [tx] } doMVCC = validateAndApplyTx codec db doMVCC blk.num v tx := by
  unfold validateAndPrepareBatch at run ⊢
  rw [foldlM_append, run]
  simp only [foldlM_cons, foldlM_nil, bind_pure]
  rfl

/-- The batch of the block is built, and it turns the committed state into the state after executing the valid
transactions one by one. -/
def BatchRefines (codec : Codec) (db : DB) (blk : Block) (doMVCC : Bool) : Prop :=
  ∃ v, validateAndPrepareBatch codec db blk doMVCC = .ok v ∧
    ∀ k height, latestState (db.applyPrivacyAwareUpdates ⟨v.updates.publicUpdates, v.updates.hashUpdates, ∅⟩ height) k =
      (validTxs blk.txs v.codes).foldl (execTx codec blk.num) (latestState db) k

theorem latestState_applied (db : DB) (u : PubAndHashUpdates) (k : CollKey) (height : Option Height) :
    latestState (db.applyPrivacyAwareUpdates ⟨u.publicUpdates, u.hashUpdates, ∅⟩ height) k = shownEntry db u k :=
  Applied.latestState ⟨rfl, rfl⟩ k

theorem readAs_of_refines (refines : BatchRefines codec db { blk with txs := txs ++ [tx] } doMVCC)
    (run : validateAndPrepareBatch codec db { blk with txs } doMVCC = .ok v)
    (tracks : Tracks codec db blk.num (validTxs txs v.codes) v.updates) :
    (∃ code, validateEndorserTX codec db tx.rwset doMVCC v.updates = .ok code) ∧
      (validateEndorserTX codec db tx.rwset doMVCC v.updates = .ok .valid →
        AllReadAs codec (committingTxHeight blk.num tx) tx.rwset (shownEntry db v.updates) (marked v.updates)) := by
  obtain ⟨v', ran, same⟩ := refines
  have inv := validateAndPrepareBatch_invariant run
  rw [validateAndPrepareBatch_concat run] at ran
  obtain ⟨code, validated, codes, stored⟩ := validateAndApplyTx_cases ran
  refine ⟨⟨code, validated⟩, fun valid => ?_⟩
  cases validated.symm.trans valid
  obtain ⟨_, stored⟩ | ⟨invalid, _⟩ := stored
  · refine readAs_of_applyWriteSet inv.clean stored fun k => ?_
    rw [← latestState_applied db v'.updates k none, same, codes, validTxs_concat inv.length, if_pos rfl, tracks.shown]
    simp [execTx]
  · exact absurd rfl invalid

theorem validateAndApplyTx_of_readAs {code : TxValidationCode} (clean : MarkersClean v.updates)
    (validated : validateEndorserTX codec db tx.rwset doMVCC v.updates = .ok code)
    (reads : validateEndorserTX codec db tx.rwset doMVCC v.updates = .ok .valid →
      AllReadAs codec (committingTxHeight blk.num tx) tx.rwset (shownEntry db v.updates) (marked v.updates)) :
    ∃ v', validateAndApplyTx codec db doMVCC blk.num v tx = .ok v' := by
  by_cases valid : code = .valid
  · subst valid
    obtain ⟨u', stored⟩ := applyWriteSet_of_readAs clean (reads validated) tx.containsPostOrderWrites
    exact ⟨_, by simp only [validateAndApplyTx, validated, stored, bind, Except.bind, if_true]; rfl⟩
  · exact ⟨_, by simp only [validateAndApplyTx, validated, bind, Except.bind, if_neg valid]; rfl⟩

/-- After every transaction the batch refines the execution of the valid ones exactly if each transaction gets a code
and the writes of the valid ones are read as they are meant. For writes made once that is: no metadata alone for a
key that was deleted last. -/
theorem batchRefines_iff (codec : Codec) (db : DB) (blk : Block) (doMVCC : Bool) :
    ((∀ txs, txs <+: blk.txs → BatchRefines codec db { blk with txs } doMVCC) ↔
      ∀ before tx v, before ++ [tx] <+: blk.txs → validateAndPrepareBatch codec db { blk with txs := before } doMVCC = .ok v →
        (∃ code, validateEndorserTX codec db tx.rwset doMVCC v.updates = .ok code) ∧
        (validateEndorserTX codec db tx.rwset doMVCC v.updates = .ok .valid →
          AllReadAs codec (committingTxHeight blk.num tx) tx.rwset
            ((validTxs before v.codes).foldl (execTx codec blk.num) (latestState db)) (markedAfter codec (validTxs before v.codes)))) ∧
    ∀ rwset, WritesOnce codec rwset → ∀ h s marker, AllReadAs codec h rwset s marker ↔
      ∀ k, opsOn k (writeOps codec rwset) ≠ [] → lastOf asValue (opsOn k (writeOps codec rwset)) = none → marker k = false := by
  refine ⟨⟨fun refines before tx v inside run => ?_, fun meant txs inside => ?_⟩, ?_⟩
  · -- The marks are those of the transactions as long as each of them was read as meant.
    have tracks := (foldlM_invariant (fun done v => validateAndPrepareBatch codec db { blk with txs := done } doMVCC = .ok v ∧
        Tracks codec db blk.num (validTxs done v.codes) v.updates) run ⟨rfl, .initial _ _ _⟩ ?_).2
    · have reads := readAs_of_refines (refines _ inside) run tracks
      rwa [tracks.shown, tracks.marked] at reads
    · rintro done tx v v' part ⟨run, tracks⟩ step
      have part := part.trans ((prefix_append _ _).trans inside)
      exact ⟨(validateAndPrepareBatch_concat run tx).trans step,
        tracks.validated (validateAndPrepareBatch_invariant run) step (readAs_of_refines (refines _ part) run tracks).2⟩
  · suffices built : ∃ v, validateAndPrepareBatch codec db { blk with txs } doMVCC = .ok v ∧
        Tracks codec db blk.num (validTxs txs v.codes) v.updates by
      obtain ⟨v, run, tracks⟩ := built
      exact ⟨v, run, fun k height => (latestState_applied ..).trans (congrFun tracks.shown k)⟩
    induction txs using reverseRecOn with
    | nil => exact ⟨_, rfl, .initial _ _ _⟩
    | append_singleton txs tx ih =>
      obtain ⟨v, run, tracks⟩ := ih ((prefix_append _ _).trans inside)
      have inv := validateAndPrepareBatch_invariant run
      obtain ⟨⟨code, validated⟩, reads⟩ := meant txs tx v inside run
      rw [← tracks.shown, ← tracks.marked] at reads
      obtain ⟨v', step⟩ := validateAndApplyTx_of_readAs inv.clean validated reads
      exact ⟨v', (validateAndPrepareBatch_concat run tx).trans step, tracks.validated inv step reads⟩
  · exact fun rwset once h s marker => forall₂_congr fun k named => (once.shape k).readAs_iff named h (s k) (marker k)

end

def keyTx (index : Nat) (writes : List KVWrite) (metadataWrites : List KVMetadataWrite) : Transaction :=
  ⟨index, ⟨[⟨[1], ⟨[], [], writes, metadataWrites⟩, []⟩]⟩, false⟩

def storedKey : DB :=
  DB.empty.applyPrivacyAwareUpdates ⟨⟨false, Std.ExtTreeMap.insert ∅ ⟨[1], [7]⟩ ⟨some [5], none, ⟨0, 0⟩⟩⟩, ∅, ∅⟩ none

def metadataAfterDelete : Block :=
  ⟨1, 2, [keyTx 0 [⟨[7], true, []⟩] [], keyTx 1 [] [⟨[7], [⟨[3], [4]⟩]⟩]]⟩

def writtenTwice : Block :=
  ⟨1, 1, [keyTx 0 [⟨[7], false, [5]⟩, ⟨[7], false, [6]⟩] []]⟩

/-- The metadata write takes the mark of the delete for a value; two writes of one key are taken for a metadata write. -/
theorem metadataAfterDelete_panics :
    (¬ BatchRefines .plain storedKey metadataAfterDelete false ∧ ¬ BatchRefines .plain storedKey metadataAfterDelete true) ∧
      ¬ BatchRefines .plain .empty writtenTwice false := by
  have panics (doMVCC : Bool) : ¬ BatchRefines .plain storedKey metadataAfterDelete doMVCC := by
    rintro ⟨v, run, _⟩
    have failed : ∀ doMVCC, (validateAndPrepareBatch .plain storedKey metadataAfterDelete doMVCC).toOption.isNone := by
      decide +kernel
    simpa [run, Except.toOption] using failed doMVCC
  refine ⟨⟨panics false, panics true⟩, ?_⟩
  rintro ⟨v, run, same⟩
  have lost : ((validateAndPrepareBatch .plain .empty writtenTwice false).toOption.map fun v =>
      (shownEntry .empty v.updates ⟨[1], [], [7]⟩, v.codes)) = some (none, [.valid]) := by decide +kernel
  simp only [run, Except.toOption, map_some, some.injEq, Prod.mk.injEq] at lost
  have meant := same ⟨[1], [], [7]⟩ none
  rw [latestState_applied, lost.1, lost.2] at meant
  revert meant
  decide +kernel

def metadataAfterPut : Block :=
  ⟨1, 3, [keyTx 0 [⟨[7], true, []⟩] [], keyTx 1 [⟨[7], false, [6]⟩] [], keyTx 2 [] [⟨[7], [⟨[3], [4]⟩]⟩]]⟩

example : (validateAndPrepareBatch .plain storedKey metadataAfterPut true).toOption.bind (fun v =>
    shownEntry storedKey v.updates ⟨[1], [], [7]⟩) =
      some ⟨some [6], some (Codec.plain.serializeMetadata [⟨[3], [4]⟩]), ⟨1, 2⟩⟩ := by
  decide +kernel

abbrev Chain := List (Block × List TxValidationCode)

/-- Blocks, with the codes of their transactions, committed one after the other, whatever becomes of private data. -/
inductive Commits (codec : Codec) (db : DB) : Chain → DB → Prop where
  | start : Commits codec db [] db
  | next {chain s blk v} (hashed pvt height) (before : Commits codec db chain s)
      (run : validateAndPrepareBatch codec s blk true = .ok v) : Commits codec db (chain ++ [(blk, v.codes)])
        (s.applyPrivacyAwareUpdates ⟨v.updates.publicUpdates, hashed, pvt⟩ height)

/-- A valid transaction is executed if the public keys that it read have the versions that it read. -/
def execSerially (codec : Codec) (n : Nat) (w : WorldState) (t : Transaction × TxValidationCode) : Option WorldState :=
  match t.2 with
  | .valid =>
    if ∀ ns ∈ t.1.rwset.nsRwSets, ∀ r ∈ ns.kvRwSet.reads, (w ⟨ns.nameSpace, [], r.key⟩).map (·.version) = r.version then
      some (execTx codec n w t.1)
    else none
  | _ => some w

def execChain (codec : Codec) (w : WorldState) (chain : Chain) : Option WorldState :=
  chain.foldlM (fun w b => (b.1.txs.zip b.2).foldlM (execSerially codec b.1.num) w) w

def SamePublic (w w' : WorldState) : Prop := ∀ ns key, w ⟨ns, [], key⟩ = w' ⟨ns, [], key⟩

theorem execSerially_block {codec : Codec} {db : DB} {blk : Block} {w : WorldState} (same : SamePublic (latestState db) w)
    (once : ∀ tx ∈ blk.txs, WritesOnce codec tx.rwset) (run : validateAndPrepareBatch codec db blk true = .ok v) :
    ∃ w', (blk.txs.zip v.codes).foldlM (execSerially codec blk.num) w = some w' ∧ SamePublic (shownEntry db v.updates) w' := by
  refine (foldlM_invariant (fun done v => BlockInvariant codec db blk.num true done v ∧ ∃ w',
    (done.zip v.codes).foldlM (execSerially codec blk.num) w = some w' ∧ SamePublic (shownEntry db v.updates) w') run
    ⟨.initial _ _ _ _, w, rfl, fun ns key => by simp [shownEntry, get_newPubAndHashUpdates, same ns key]⟩ ?_).2
  rintro done tx v v' inside ⟨inv, w', executed, shown⟩ step
  refine ⟨inv.step step, ?_⟩
  obtain ⟨code, ran, codes, ⟨rfl, stored⟩ | ⟨invalid, kept⟩⟩ := validateAndApplyTx_cases step
  · obtain ⟨s, _, applied⟩ := inv.state
    have reads := validateNsRwSets_justified applied inv.pending ran
    have now : execSerially codec blk.num w' (tx, .valid) = some (execTx codec blk.num w' tx) := if_pos fun ns mem r read => by
      rw [← shown, shownEntry, ← applied.latestState]
      exact (reads ns mem).reads r read
    refine ⟨execTx codec blk.num w' tx, by simp [codes, zip_append inv.length, foldlM_append, executed, now], fun ns key => ?_⟩
    rw [(shown_of_readAs inv.clean ((once tx (inside.subset (by simp))).readAs stored) stored _).1, shown]
    rfl
  · exact ⟨w', by cases code <;> simp_all [zip_append inv.length, foldlM_append, execSerially], kept ▸ shown⟩

/-- Run one by one, the valid transactions of a chain find the public versions they read, and lead to the public
state of the database. -/
theorem chain_serializable (codec : Codec) (db s : DB) (chain : Chain) (commits : Commits codec db chain s)
    (once : ∀ b ∈ chain, ∀ tx ∈ b.1.txs, WritesOnce codec tx.rwset) :
    ∃ w, execChain codec (latestState db) chain = some w ∧ SamePublic (latestState s) w := by
  induction commits with
  | start => exact ⟨_, rfl, fun _ _ => rfl⟩
  | next hashed pvt height _ run ih =>
    obtain ⟨earlier, last⟩ := forall_mem_append.mp once
    obtain ⟨w, serial, same⟩ := ih earlier
    obtain ⟨w', executed, shown⟩ := execSerially_block same (last _ mem_cons_self) run
    refine ⟨w', by simp_all [execChain, foldlM_append], fun ns key => ?_⟩
    rw [← shown]
    simp [latestState, shownEntry, PubAndHashUpdates.get, DB.applyPrivacyAwareUpdates, State.getState_applyUpdates]

/-- A transaction that read what the block before wrote. -/
def laterBlock : Block :=
  ⟨2, 1, [⟨0, ⟨[⟨[1], ⟨[⟨[7], some ⟨1, 0⟩⟩], [], [], [⟨[7], [⟨[3], [4]⟩]⟩]⟩, []⟩]⟩, false⟩]⟩

theorem conflictingBlock_executed : ∃ codes s, Commits .plain .empty [(conflictingBlock, codes), (laterBlock, [.valid])] s ∧
      ∃ w, execChain .plain (latestState .empty) [(conflictingBlock, codes), (laterBlock, [.valid])] = some w ∧
        SamePublic (latestState s) w := by
  have accepted : ((validateAndPrepareBatch .plain .empty conflictingBlock true).toOption.bind fun v => (validateAndPrepareBatch .plain
      (DB.empty.applyPrivacyAwareUpdates ⟨v.updates.publicUpdates, ∅, ∅⟩ none) laterBlock true).toOption).map (·.codes) =
    some [.valid] := by decide +kernel
  obtain ⟨v', both, codes⟩ := map_eq_some_iff.mp accepted
  obtain ⟨v, first, second⟩ := bind_eq_some_iff.mp both
  have commits := Commits.next ∅ ∅ none (.next ∅ ∅ none .start (toOption_eq_some.mp first)) (toOption_eq_some.mp second)
  rw [codes] at commits
  refine ⟨_, _, commits, chain_serializable _ _ _ _ commits ?_⟩
  simp only [mem_cons, not_mem_nil, or_false, forall_eq_or_imp, forall_eq]
  decide

end Fabric.Proof.Validation
