import Fabric.Ledger.Validation.Validator
import Fabric.Lib.Extract
import Fabric.Proof.Validation.RangeQuery
import Fabric.Proof.Validation.WriteSet

/-! # Validation of a block is serializable -/

namespace Fabric.Proof.Validation

open Lib Fabric.Ledger Fabric.Ledger.Validation Option
open List hiding ext_getElem?

variable {h : Height} {ops : TxOps} {u' fresh : PubAndHashUpdates} {K : Type} {code : TxValidationCode}

def MarkersClean (u : PubAndHashUpdates) : Prop :=
  ∀ k vv, u.get k = some vv → vv.isDelete → vv.metadata = none

structure Applied (db : DB) (u : PubAndHashUpdates) (s : DB) : Prop where
  pub : s.pub = db.pub.applyUpdates u.publicUpdates.updates
  hashed : s.hashed = db.hashed.applyUpdates u.hashUpdates

theorem get_newPubAndHashUpdates (k : CollKey) : newPubAndHashUpdates.get k = none := by
  simp [newPubAndHashUpdates, UpdateBatch.new, PubAndHashUpdates.get]

theorem Applied.initial (db : DB) : Applied db newPubAndHashUpdates db where
  pub := State.ext_getState fun k => by
    simp [State.getState_applyUpdates, newPubAndHashUpdates, UpdateBatch.new]
  hashed := State.ext_getState fun k => by
    simp [State.getState_applyUpdates, newPubAndHashUpdates]

theorem MarkersClean.initial : MarkersClean newPubAndHashUpdates := by
  intro k vv found
  simp [get_newPubAndHashUpdates] at found

theorem latestMetadata_eq (db : DB) (k : CollKey) : latestMetadata db k = (latestState db k).bind (·.metadata) := by
  unfold latestMetadata latestState
  split
  · exact db.getStateMetadata_eq _
  · exact db.getPrivateDataMetadataByHash_eq _

theorem Applied.latestState {db s : DB} {u : PubAndHashUpdates} (applied : Applied db u s) (k : CollKey) :
    latestState s k = overlayEntry VersionedValue.isDelete (u.get k) (latestState db k) := by
  unfold Validation.latestState PubAndHashUpdates.get
  rw [applied.pub, applied.hashed]
  cases k.coll.isEmpty <;> simp [State.getState_applyUpdates]

theorem finalKeyOps_applied {db s : DB} {u : PubAndHashUpdates} (applied : Applied db u s) (clean : MarkersClean u)
    (k : CollKey) (op : KeyOps) (puts : ∀ final, finalKeyOps u db k op = some final → puttable final) :
    finalKeyOps newPubAndHashUpdates s k op = finalKeyOps u db k op := by
  have latest := applied.latestState k
  unfold finalKeyOps at puts ⊢
  simp only [retrieveLatestState, retrieveLatestMetadata, get_newPubAndHashUpdates, latestMetadata_eq, latest, none_or] at puts ⊢
  split
  · rfl
  · rename_i merged
    simp only [merged, Bool.false_eq_true, if_false] at puts
    cases pending : u.get k with
    | none => simp
    | some vv =>
      cases marker : vv.isDelete with
      | false => simp [marker]
      | true =>
        have bare := clean k vv pending marker
        have noValue : vv.value = none := by simpa [VersionedValue.isDelete] using marker
        split
        · simp [bare, marker]
        · rename_i notUpsert
          simp only [notUpsert, pending, some_or] at puts
          simp_all [puttable, KeyOps.isDelete]

theorem prepareTxOps_applied {codec : Codec} {db s : DB} {u : PubAndHashUpdates} {rwset : TxRwSet}
    (applied : Applied db u s) (clean : MarkersClean u) (puts : Puttable (prepareTxOps codec rwset u db)) :
    prepareTxOps codec rwset newPubAndHashUpdates s = prepareTxOps codec rwset u db := by
  refine ext_getElem? fun k => ?_
  rw [get_prepareTxOps, get_prepareTxOps]
  cases found : (TxOps.applyTxRwset codec ∅ rwset)[k]? with
  | none => rfl
  | some op =>
    refine finalKeyOps_applied applied clean k op fun final merged => puts k final ?_
    rw [get_prepareTxOps, found]
    exact merged

theorem Written.public_union {u : PubAndHashUpdates} (w : Written h ops u u') (alone : Written h ops newPubAndHashUpdates fresh) :
    u'.publicUpdates.updates = u.publicUpdates.updates ∪ fresh.publicUpdates.updates := by
  refine ext_getElem? fun ⟨ns, key⟩ => ?_
  simp [getElem?_union, w.pub, alone.pub, newPubAndHashUpdates, UpdateBatch.new]

theorem Written.hashed_union {u : PubAndHashUpdates} (w : Written h ops u u')
    (alone : Written h ops newPubAndHashUpdates fresh) : u'.hashUpdates = u.hashUpdates ∪ fresh.hashUpdates := by
  refine ext_getElem? fun k => ?_
  cases outside : k.coll.isEmpty with
  | false =>
    simp [getElem?_union, w.hashed k outside, alone.hashed k outside, newPubAndHashUpdates]
  | true =>
    simp [getElem?_union, w.hashedOutside k outside, alone.hashedOutside k outside, newPubAndHashUpdates]

theorem Written.markersClean {u : PubAndHashUpdates} (w : Written h ops u u') (clean : MarkersClean u)
    (puts : Puttable ops) : MarkersClean u' := by
  intro k vv found marker
  rw [w.get] at found
  cases present : ops[k]? with
  | none => exact clean k vv (by simpa [present] using found) marker
  | some op =>
    have fits := puts k op present
    simp only [present, map_some, some_or, some.injEq] at found
    subst found
    unfold written at marker ⊢
    split at marker
    · simp_all
    · simp_all [puttable, VersionedValue.isDelete]

def commitTx (codec : Codec) (blockNum : Nat) (db : DB) (tx : Transaction) : Result DB := do
  let height := committingTxHeight blockNum tx
  let u ← newPubAndHashUpdates.applyWriteSet codec tx.rwset height db tx.containsPostOrderWrites
  .ok (db.applyPrivacyAwareUpdates ⟨u.publicUpdates, u.hashUpdates, ∅⟩ (some height))

theorem State.applyUpdates_union [Ord K] [Std.TransOrd K] [Std.LawfulEqOrd K] (s : State K) (first second : Updates K) :
    s.applyUpdates (first ∪ second) = (s.applyUpdates first).applyUpdates second := by
  simp only [State.applyUpdates, overlay_union]

theorem applyWriteSet_commitTx {codec : Codec} {db s : DB} {u : PubAndHashUpdates} {tx : Transaction} {blockNum : Nat}
    (applied : Applied db u s) (clean : MarkersClean u)
    (stored : u.applyWriteSet codec tx.rwset (committingTxHeight blockNum tx) db tx.containsPostOrderWrites = .ok u') :
    ∃ s', commitTx codec blockNum s tx = .ok s' ∧ Applied db u' s' ∧ MarkersClean u' := by
  obtain ⟨puts, w⟩ := applyWriteSet_eq_ok stored
  have same := prepareTxOps_applied applied clean puts
  obtain ⟨fresh, storedAlone, alone⟩ := applyWriteSet_of_puttable (committingTxHeight blockNum tx)
    tx.containsPostOrderWrites (same ▸ puts)
  rw [same] at alone
  refine ⟨_, by simp [commitTx, storedAlone, bind, Except.bind]; rfl, ⟨?_, ?_⟩, w.markersClean clean puts⟩
  · simp only [DB.applyPrivacyAwareUpdates, applied.pub, w.public_union alone, State.applyUpdates_union]
  · simp only [DB.applyPrivacyAwareUpdates, applied.hashed, w.hashed_union alone, State.applyUpdates_union]

structure NsReadsUnchanged (codec : Codec) (s : DB) (nsSet : NsRwSet) : Prop where
  reads : ∀ r ∈ nsSet.kvRwSet.reads, s.pub.getVersion ⟨nsSet.nameSpace, r.key⟩ = r.version
  ranges : ∀ rqi ∈ nsSet.kvRwSet.rangeQueriesInfo, rangeUnchanged codec s.pub nsSet.nameSpace rqi
  hashedReads : ∀ coll ∈ nsSet.collHashedRwSets, ∀ r ∈ coll.hashedRwSet.hashedReads,
    s.hashed.getVersion ⟨nsSet.nameSpace, coll.collectionName, r.keyHash⟩ = r.version

def NsReadConflict (codec : Codec) (s : DB) (earlier : List Transaction) (nsSet : NsRwSet) : Prop :=
  (∃ r ∈ nsSet.kvRwSet.reads, s.pub.getVersion ⟨nsSet.nameSpace, r.key⟩ ≠ r.version ∨
    ∃ tx ∈ earlier, ⟨nsSet.nameSpace, [], r.key⟩ ∈ writtenKeys codec tx.rwset) ∨
  ∃ coll ∈ nsSet.collHashedRwSets, ∃ r ∈ coll.hashedRwSet.hashedReads,
    s.hashed.getVersion ⟨nsSet.nameSpace, coll.collectionName, r.keyHash⟩ ≠ r.version ∨
      ∃ tx ∈ earlier, ⟨nsSet.nameSpace, coll.collectionName, r.keyHash⟩ ∈ writtenKeys codec tx.rwset

def NsPhantomConflict (codec : Codec) (s : DB) (nsSet : NsRwSet) : Prop :=
  ∃ rqi ∈ nsSet.kvRwSet.rangeQueriesInfo, ¬ rangeUnchanged codec s.pub nsSet.nameSpace rqi

structure PendingFrom (codec : Codec) (earlier : List Transaction) (u : PubAndHashUpdates) : Prop where
  pub : ∀ ns key, u.publicUpdates.updates[(⟨ns, key⟩ : CompositeKey)]?.isSome →
    ∃ tx ∈ earlier, ⟨ns, [], key⟩ ∈ writtenKeys codec tx.rwset
  hashed : ∀ k : CollKey, u.hashUpdates[k]?.isSome → ∃ tx ∈ earlier, k ∈ writtenKeys codec tx.rwset

section

variable {codec : Codec} {db s : DB} {u : PubAndHashUpdates} {earlier : List Transaction}

theorem getVersion_applyUpdates_of_notMem [Ord K] [Std.TransOrd K] [Std.LawfulEqOrd K] (s : State K)
    {batch : Updates K} {k : K} (absent : k ∉ batch) : (s.applyUpdates batch).getVersion k = s.getVersion k := by
  simp [State.getVersion, State.getState_applyUpdates, absent]

section

variable (applied : Applied db u s)
include applied

theorem validateKVRead_spec (pending : PendingFrom codec earlier u) (ns : Bytes) (r : KVRead) :
    if validateKVRead db ns u.publicUpdates r then s.pub.getVersion ⟨ns, r.key⟩ = r.version
    else s.pub.getVersion ⟨ns, r.key⟩ ≠ r.version ∨ ∃ tx ∈ earlier, ⟨ns, [], r.key⟩ ∈ writtenKeys codec tx.rwset := by
  unfold validateKVRead
  by_cases mem : (⟨ns, r.key⟩ : CompositeKey) ∈ u.publicUpdates.updates
  · have writers := pending.pub ns r.key (mem_iff_isSome_getElem?.mp mem)
    simp [mem, writers]
  · have stored := getVersion_applyUpdates_of_notMem db.pub mem
    rw [← applied.pub] at stored
    by_cases same : s.pub.getVersion ⟨ns, r.key⟩ = r.version
    · simp [mem, ← stored, same]
    · simp [mem, ← stored, same]

theorem validateKVReadHash_spec (pending : PendingFrom codec earlier u) (ns coll : Bytes) (r : KVReadHash) :
    if validateKVReadHash db ns coll u.hashUpdates r then s.hashed.getVersion ⟨ns, coll, r.keyHash⟩ = r.version
    else s.hashed.getVersion ⟨ns, coll, r.keyHash⟩ ≠ r.version ∨
      ∃ tx ∈ earlier, ⟨ns, coll, r.keyHash⟩ ∈ writtenKeys codec tx.rwset := by
  unfold validateKVReadHash
  by_cases mem : (⟨ns, coll, r.keyHash⟩ : CollKey) ∈ u.hashUpdates
  · have writers := pending.hashed _ (mem_iff_isSome_getElem?.mp mem)
    simp [mem, writers]
  · have stored := getVersion_applyUpdates_of_notMem db.hashed mem
    rw [← applied.hashed] at stored
    by_cases same : s.hashed.getVersion ⟨ns, coll, r.keyHash⟩ = r.version
    · simp [mem, ← stored, same]
    · simp [mem, ← stored, same]

theorem validateRangeQueries_spec {ns : Bytes} {rqis : List RangeQueryInfo} {valid : Bool}
    (ran : validateRangeQueries codec db ns u.publicUpdates rqis = .ok valid) :
    valid = true ↔ ∀ rqi ∈ rqis, rangeUnchanged codec s.pub ns rqi := by
  fun_induction validateRangeQueries codec db ns u.publicUpdates rqis with
  | case1 => simp_all
  | case2 rqi rqis ih =>
    simp only [bind_eq_ok] at ran
    obtain ⟨first, checked, ran⟩ := ran
    have unchanged := validateRangeQuery_iff checked
    rw [← applied.pub] at unchanged
    cases first with
    | true => simp_all
    | false => simp_all

theorem validateReadSet_spec (pending : PendingFrom codec earlier u) (nsSet : NsRwSet) :
    if validateReadSet db nsSet.nameSpace nsSet.kvRwSet.reads u.publicUpdates then
      ∀ r ∈ nsSet.kvRwSet.reads, s.pub.getVersion ⟨nsSet.nameSpace, r.key⟩ = r.version else NsReadConflict codec s earlier nsSet := by
  have each := validateKVRead_spec applied pending nsSet.nameSpace
  split
  · rename_i valid
    intro r mem
    simpa [List.all_eq_true.mp valid r mem] using each r
  · rename_i invalid
    obtain ⟨r, mem, conflict⟩ : ∃ r ∈ nsSet.kvRwSet.reads, ¬ validateKVRead db nsSet.nameSpace u.publicUpdates r := by
      simpa [validateReadSet] using invalid
    exact .inl ⟨r, mem, by simpa [conflict] using each r⟩

theorem validateNsHashedReadSets_spec (pending : PendingFrom codec earlier u) (nsSet : NsRwSet) :
    if validateNsHashedReadSets db nsSet.nameSpace nsSet.collHashedRwSets u.hashUpdates then
      ∀ coll ∈ nsSet.collHashedRwSets, ∀ r ∈ coll.hashedRwSet.hashedReads,
        s.hashed.getVersion ⟨nsSet.nameSpace, coll.collectionName, r.keyHash⟩ = r.version else NsReadConflict codec s earlier nsSet := by
  have each := validateKVReadHash_spec applied pending nsSet.nameSpace
  split
  · rename_i valid
    intro coll inNs r mem
    have checked := List.all_eq_true.mp (List.all_eq_true.mp valid coll inNs) r mem
    simpa [checked] using each coll.collectionName r
  · rename_i invalid
    obtain ⟨coll, inNs, r, mem, conflict⟩ : ∃ coll ∈ nsSet.collHashedRwSets, ∃ r ∈ coll.hashedRwSet.hashedReads,
        ¬ validateKVReadHash db nsSet.nameSpace coll.collectionName u.hashUpdates r := by
      simpa [validateNsHashedReadSets, validateCollHashedReadSet] using invalid
    exact .inr ⟨coll, inNs, r, mem, by simpa [conflict] using each coll.collectionName r⟩

end

/-- What the outcome of validating a transaction says about its reads in the applied state. -/
def Justified (codec : Codec) (s : DB) (earlier : List Transaction) (nsRwSets : List NsRwSet) :
    TxValidationCode → Prop
  | .valid => ∀ nsSet ∈ nsRwSets, NsReadsUnchanged codec s nsSet
  | .mvccReadConflict => ∃ nsSet ∈ nsRwSets, NsReadConflict codec s earlier nsSet
  | .phantomReadConflict => ∃ nsSet ∈ nsRwSets, NsPhantomConflict codec s nsSet

theorem validateNsRwSets_justified (applied : Applied db u s) (pending : PendingFrom codec earlier u)
    {nsRwSets : List NsRwSet} (ran : validateNsRwSets codec db u nsRwSets = .ok code) : Justified codec s earlier nsRwSets code := by
  induction nsRwSets with
  | nil =>
    cases ran
    simp [Justified]
  | cons nsSet rest ih =>
    have reads := validateReadSet_spec applied pending nsSet
    have hashedReads := validateNsHashedReadSets_spec applied pending nsSet
    simp only [validateNsRwSets, Bool.not_eq_true'] at ran
    split at ran
    · rename_i invalid
      cases ran
      exact ⟨nsSet, mem_cons_self, by simpa [invalid] using reads⟩
    · rename_i readsValid
      simp only [bind_eq_ok] at ran
      obtain ⟨rangesValid, ranges, ran⟩ := ran
      have ranges := validateRangeQueries_spec applied ranges
      split at ran
      · rename_i invalid
        cases ran
        exact ⟨nsSet, mem_cons_self, by simpa [NsPhantomConflict, invalid] using ranges⟩
      · rename_i rangesValid
        split at ran
        · rename_i invalid
          cases ran
          exact ⟨nsSet, mem_cons_self, by simpa [invalid] using hashedReads⟩
        · rename_i hashedValid
          have unchanged : NsReadsUnchanged codec s nsSet := by
            simp only [Bool.not_eq_false] at readsValid rangesValid hashedValid
            exact ⟨by simpa [readsValid] using reads, ranges.mp rangesValid, by simpa [hashedValid] using hashedReads⟩
          have later := ih ran
          cases code with
          | valid => exact forall_mem_cons.mpr ⟨unchanged, later⟩
          | mvccReadConflict => exact exists_mem_cons_of_exists later
          | phantomReadConflict => exact exists_mem_cons_of_exists later

end

def sequentialState (codec : Codec) (db : DB) (blk : Block) (codes : List TxValidationCode) (i : Nat) : Result DB :=
  (validTxs (blk.txs.take i) (codes.take i)).foldlM (commitTx codec blk.num) db

theorem validTxs_concat {txs : List Transaction} {codes : List TxValidationCode} (same : txs.length = codes.length)
    (tx : Transaction) (code : TxValidationCode) :
    validTxs (txs ++ [tx]) (codes ++ [code]) = validTxs txs codes ++ if code = .valid then [tx] else [] := by
  unfold validTxs
  rw [zip_append same]
  cases code <;> simp

theorem PendingFrom.initial (codec : Codec) : PendingFrom codec [] newPubAndHashUpdates where
  pub ns key found := by simp [newPubAndHashUpdates, UpdateBatch.new] at found
  hashed k found := by simp [newPubAndHashUpdates] at found

theorem PendingFrom.applyWriteSet {codec : Codec} {db : DB} {u : PubAndHashUpdates} {earlier : List Transaction}
    {tx : Transaction} {post : Bool} (pending : PendingFrom codec earlier u)
    (stored : u.applyWriteSet codec tx.rwset h db post = .ok u') : PendingFrom codec (earlier ++ [tx]) u' := by
  obtain ⟨_, w⟩ := applyWriteSet_eq_ok stored
  have earlierOrNow : ∀ k : CollKey, k ∈ writtenKeys codec tx.rwset ∨ (∃ tx ∈ earlier, k ∈ writtenKeys codec tx.rwset) →
      ∃ tx' ∈ earlier ++ [tx], k ∈ writtenKeys codec tx'.rwset := by
    rintro k (now | ⟨tx', before, names⟩)
    · exact ⟨tx, by simp, now⟩
    · exact ⟨tx', by simp [before], names⟩
  constructor
  · intro ns key found
    rw [w.pub, isSome_or, Bool.or_eq_true, isSome_map] at found
    exact earlierOrNow _ (found.imp mem_writtenKeys (pending.pub ns key))
  · intro k found
    cases outside : k.coll.isEmpty with
    | true => exact earlierOrNow k (.inr (pending.hashed k (by rwa [w.hashedOutside k outside] at found)))
    | false =>
      rw [w.hashed k outside, isSome_or, Bool.or_eq_true, isSome_map] at found
      exact earlierOrNow k (found.imp mem_writtenKeys (pending.hashed k))

structure BlockInvariant (codec : Codec) (db : DB) (blockNum : Nat) (doMVCC : Bool) (txs : List Transaction)
    (v : Validated) : Prop where
  length : txs.length = v.codes.length
  clean : MarkersClean v.updates
  pending : PendingFrom codec (validTxs txs v.codes) v.updates
  state : ∃ s, (validTxs txs v.codes).foldlM (commitTx codec blockNum) db = .ok s ∧ Applied db v.updates s
  justified : doMVCC = true → ∀ i tx code, txs[i]? = some tx → v.codes[i]? = some code →
    ∃ s, sequentialState codec db ⟨blockNum, txs.length, txs⟩ v.codes i = .ok s ∧
      Justified codec s (validTxs (txs.take i) (v.codes.take i)) tx.rwset.nsRwSets code

theorem BlockInvariant.initial (codec : Codec) (db : DB) (blockNum : Nat) (doMVCC : Bool) :
    BlockInvariant codec db blockNum doMVCC [] ⟨newPubAndHashUpdates, [], ∅⟩ where
  length := rfl
  clean := .initial
  pending := .initial codec
  state := ⟨db, rfl, .initial db⟩
  justified _ i tx code found := by simp at found

theorem validateAndApplyTx_cases {codec : Codec} {db : DB} {blockNum : Nat} {doMVCC : Bool}
    {v v' : Validated} {tx : Transaction} (step : validateAndApplyTx codec db doMVCC blockNum v tx = .ok v') :
    ∃ code, validateEndorserTX codec db tx.rwset doMVCC v.updates = .ok code ∧ v'.codes = v.codes ++ [code] ∧
      (code = .valid ∧ v.updates.applyWriteSet codec tx.rwset (committingTxHeight blockNum tx) db
          tx.containsPostOrderWrites = .ok v'.updates ∨ code ≠ .valid ∧ v'.updates = v.updates) := by
  simp only [validateAndApplyTx, bind_eq_ok] at step
  obtain ⟨code, ran, step⟩ := step
  refine ⟨code, ran, ?_⟩
  split at step
  · rename_i valid
    simp only [bind_eq_ok, ok.injEq] at step
    obtain ⟨u, stored, rfl⟩ := step
    exact ⟨rfl, .inl ⟨valid, stored⟩⟩
  · rename_i invalid
    cases step
    exact ⟨rfl, .inr ⟨invalid, rfl⟩⟩

section

variable {codec : Codec} {db : DB} {blockNum : Nat} {doMVCC : Bool} {txs : List Transaction} {v v' : Validated}
  {tx : Transaction}

theorem BlockInvariant.state_step (inv : BlockInvariant codec db blockNum doMVCC txs v)
    (step : validateAndApplyTx codec db doMVCC blockNum v tx = .ok v') :
    MarkersClean v'.updates ∧ PendingFrom codec (validTxs (txs ++ [tx]) v'.codes) v'.updates ∧
      ∃ s, (validTxs (txs ++ [tx]) v'.codes).foldlM (commitTx codec blockNum) db = .ok s ∧ Applied db v'.updates s := by
  obtain ⟨s, sequential, applied⟩ := inv.state
  obtain ⟨code, _, codes, ⟨valid, stored⟩ | ⟨invalid, unchanged⟩⟩ := validateAndApplyTx_cases step
  · obtain ⟨s', committed, applied', clean⟩ := applyWriteSet_commitTx applied inv.clean stored
    rw [codes, validTxs_concat inv.length, if_pos valid]
    refine ⟨clean, inv.pending.applyWriteSet stored, s', ?_, applied'⟩
    simp [foldlM_append, sequential, committed, bind, Except.bind, pure, Except.pure]
  · rw [codes, validTxs_concat inv.length, if_neg invalid, append_nil, unchanged]
    exact ⟨inv.clean, inv.pending, s, sequential, applied⟩

theorem BlockInvariant.justified_step (inv : BlockInvariant codec db blockNum doMVCC txs v)
    (step : validateAndApplyTx codec db doMVCC blockNum v tx = .ok v') (mvcc : doMVCC = true)
    {i : Nat} {tx' : Transaction} (ofTx : (txs ++ [tx])[i]? = some tx') (ofCode : v'.codes[i]? = some code) :
    ∃ s, sequentialState codec db ⟨blockNum, (txs ++ [tx]).length, txs ++ [tx]⟩ v'.codes i = .ok s ∧
      Justified codec s (validTxs ((txs ++ [tx]).take i) (v'.codes.take i)) tx'.rwset.nsRwSets code := by
  obtain ⟨s, sequential, applied⟩ := inv.state
  obtain ⟨newCode, ran, codes, _⟩ := validateAndApplyTx_cases step
  have length := inv.length
  rw [codes] at ofCode ⊢
  simp only [sequentialState]
  rcases getElem?_concat_cases ofTx with ⟨inside, ofTx⟩ | ⟨last, rfl⟩
  · rcases getElem?_concat_cases ofCode with ⟨_, ofCode⟩ | ⟨outside, _⟩
    · rw [take_append_of_le_length (by omega), take_append_of_le_length (by omega)]
      exact inv.justified mvcc i tx' code ofTx ofCode
    · omega
  · rcases getElem?_concat_cases ofCode with ⟨outside, _⟩ | ⟨_, rfl⟩
    · omega
    · rw [take_append_of_le_length (by omega), take_append_of_le_length (by omega),
        take_of_length_le (by omega), take_of_length_le (by omega)]
      simp only [validateEndorserTX, mvcc, if_true] at ran
      exact ⟨s, sequential, validateNsRwSets_justified applied inv.pending ran⟩

theorem BlockInvariant.step (inv : BlockInvariant codec db blockNum doMVCC txs v)
    (step : validateAndApplyTx codec db doMVCC blockNum v tx = .ok v') : BlockInvariant codec db blockNum doMVCC (txs ++ [tx]) v' := by
  obtain ⟨clean, pending, state⟩ := inv.state_step step
  obtain ⟨code, _, codes, _⟩ := validateAndApplyTx_cases step
  exact ⟨by simp [codes, inv.length], clean, pending, state, fun mvcc i tx' code ofTx ofCode => inv.justified_step step mvcc ofTx ofCode⟩

end

theorem validateAndPrepareBatch_invariant {codec : Codec} {db : DB} {blk : Block} {doMVCC : Bool}
    {v : Validated} (run : validateAndPrepareBatch codec db blk doMVCC = .ok v) : BlockInvariant codec db blk.num doMVCC blk.txs v :=
  foldlM_invariant (BlockInvariant codec db blk.num doMVCC) run (.initial _ _ _ _)
    fun _ _ _ _ _ inv step => inv.step step

def conflictingBlock : Block where
  num := 1
  dataLen := 4
  txs := [⟨0, ⟨[⟨[1], ⟨[], [], [⟨[7], false, [9]⟩], []⟩, []⟩]⟩, false⟩,
    ⟨1, ⟨[⟨[1], ⟨[⟨[7], none⟩], [], [], []⟩, []⟩]⟩, false⟩,
    ⟨2, ⟨[⟨[1], ⟨[], [⟨[6], [8], true, .rawReads []⟩], [], []⟩, []⟩]⟩, false⟩,
    ⟨3, ⟨[⟨[1], ⟨[⟨[8], none⟩], [⟨[6], [8], true, .rawReads [⟨[7], some ⟨1, 0⟩⟩]⟩], [], []⟩, []⟩]⟩, false⟩]

end Fabric.Proof.Validation
