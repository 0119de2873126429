import Fabric.Ledger.Validation.TxOps

namespace Fabric.Proof.Validation

open Lib Fabric.Ledger Fabric.Ledger.Validation
open List hiding getElem?_insert

def written (h : Height) (op : KeyOps) : VersionedValue :=
  if op.isDelete then ⟨none, none, h⟩ else ⟨op.value, op.metadata, h⟩

def puttable (op : KeyOps) : Bool := op.isDelete || op.value.isSome

def putKeyOps (h : Height) (u : PubAndHashUpdates) (e : CollKey × KeyOps) : PubAndHashUpdates where
  publicUpdates := { u.publicUpdates with updates :=
    if e.1.coll.isEmpty then u.publicUpdates.updates.insert ⟨e.1.ns, e.1.key⟩ (written h e.2)
    else u.publicUpdates.updates }
  hashUpdates := if !e.1.coll.isEmpty then u.hashUpdates.insert e.1 (written h e.2) else u.hashUpdates

theorem applyKeyOps_eq (h : Height) (u : PubAndHashUpdates) (e : CollKey × KeyOps) : u.applyKeyOps h e =
      if puttable e.2 then .ok (putKeyOps h u e)
      else .error (.panic "Nil value not allowed. Instead call 'Delete' function") := by
  obtain ⟨ck, op⟩ := e
  unfold PubAndHashUpdates.applyKeyOps putKeyOps written puttable Updates.delete Updates.putValAndMetadata
  cases shared : ck.coll.isEmpty <;> cases deleted : op.isDelete <;> cases value : op.value <;>
    simp [bind, Except.bind, shared, deleted, value]

variable (entries : List (CollKey × KeyOps)) {ops : TxOps} {k : CollKey}

theorem foldlM_applyKeyOps (h : Height) (u u' : PubAndHashUpdates) : entries.foldlM (PubAndHashUpdates.applyKeyOps h) u = .ok u' ↔
      (∀ e ∈ entries, puttable e.2) ∧ entries.foldl (putKeyOps h) u = u' := by
  induction entries generalizing u with
  | nil => simp [pure, Except.pure]
  | cons e rest ih =>
    rw [foldlM_cons, applyKeyOps_eq]
    cases fits : puttable e.2 with
    | true => simpa [bind, Except.bind, fits] using ih _
    | false => simp [bind, Except.bind, fits]

theorem foldl_putKeyOps_public (h : Height) (u : PubAndHashUpdates) : (entries.foldl (putKeyOps h) u).publicUpdates.updates =
      insertEach (fun ck : CollKey => ck.coll.isEmpty) (fun ck => (⟨ck.ns, ck.key⟩ : CompositeKey)) (written h) entries
        u.publicUpdates.updates := by
  induction entries generalizing u with
  | nil => rfl
  | cons e rest ih => exact ih _

theorem foldl_putKeyOps_hashed (h : Height) (u : PubAndHashUpdates) : (entries.foldl (putKeyOps h) u).hashUpdates =
      insertEach (fun ck : CollKey => !ck.coll.isEmpty) id (written h) entries u.hashUpdates := by
  induction entries generalizing u with
  | nil => rfl
  | cons e rest ih => exact ih _

structure Written (h : Height) (ops : TxOps) (u u' : PubAndHashUpdates) : Prop where
  pub : ∀ ns key, u'.publicUpdates.updates[(⟨ns, key⟩ : CompositeKey)]? =
    (ops[(⟨ns, [], key⟩ : CollKey)]?.map (written h)).or u.publicUpdates.updates[(⟨ns, key⟩ : CompositeKey)]?
  hashed : ∀ k : CollKey, k.coll.isEmpty = false → u'.hashUpdates[k]? = (ops[k]?.map (written h)).or u.hashUpdates[k]?
  hashedOutside : ∀ k : CollKey, k.coll.isEmpty = true → u'.hashUpdates[k]? = u.hashUpdates[k]?

theorem written_foldl (h : Height) (ops : TxOps) (u : PubAndHashUpdates) : Written h ops u (ops.toList.foldl (putKeyOps h) u) where
  pub ns key := by
    rw [foldl_putKeyOps_public]
    refine get_insertEach ops u.publicUpdates.updates (a := ⟨ns, [], key⟩) rfl ?_
    rintro ⟨ns', coll', key'⟩ empty same
    simp_all
  hashed k nonempty := by
    rw [foldl_putKeyOps_hashed]
    exact get_insertEach ops u.hashUpdates (a := k) (by simp [nonempty]) fun _ _ same => same
  hashedOutside k empty := by
    rw [foldl_putKeyOps_hashed]
    refine get_insertEach_of_none fun e _ nonempty same => ?_
    have : e.1 = k := same
    simp [this, empty] at nonempty

theorem Written.get {h : Height} {u u' : PubAndHashUpdates} (w : Written h ops u u') (k : CollKey) :
    u'.get k = (ops[k]?.map (written h)).or (u.get k) := by
  unfold PubAndHashUpdates.get
  obtain ⟨ns, coll, key⟩ := k
  cases coll with
  | nil => exact w.pub ns key
  | cons b rest => exact w.hashed _ rfl

private theorem applyWriteSet_iff {codec : Codec} {u u' : PubAndHashUpdates} {rwset : TxRwSet} {h : Height} {db : DB}
    {post : Bool} : u.applyWriteSet codec rwset h db post = .ok u' ↔ (∀ e ∈ (prepareTxOps codec rwset u db).toList, puttable e.2) ∧
        (prepareTxOps codec rwset u db).toList.foldl (putKeyOps h) { u with publicUpdates.containsPostOrderWrites :=
          u.publicUpdates.containsPostOrderWrites || post } = u' :=
  foldlM_applyKeyOps _ _ _ _

private theorem written_post {h : Height} {u : PubAndHashUpdates} {post : Bool} :
    Written h ops u (ops.toList.foldl (putKeyOps h) { u with publicUpdates.containsPostOrderWrites := post }) := by
  obtain ⟨pub, hashed, outside⟩ := written_foldl h ops { u with publicUpdates.containsPostOrderWrites := post }
  exact ⟨pub, hashed, outside⟩

def Puttable (ops : TxOps) : Prop :=
  ∀ (k : CollKey) (op : KeyOps), ops[k]? = some op → puttable op

section

variable {codec : Codec} {u u' : PubAndHashUpdates} {rwset : TxRwSet} {h : Height} {db : DB} {post : Bool}

theorem applyWriteSet_eq_ok (applied : u.applyWriteSet codec rwset h db post = .ok u') :
    Puttable (prepareTxOps codec rwset u db) ∧ Written h (prepareTxOps codec rwset u db) u u' := by
  obtain ⟨puts, rfl⟩ := applyWriteSet_iff.mp applied
  exact ⟨fun k op found => puts (k, op) (mem_toList_iff_getElem?_eq_some.mpr found), written_post⟩

theorem applyWriteSet_of_puttable (h : Height) (post : Bool) (puts : Puttable (prepareTxOps codec rwset u db)) :
    ∃ u', u.applyWriteSet codec rwset h db post = .ok u' ∧ Written h (prepareTxOps codec rwset u db) u u' :=
  ⟨_, applyWriteSet_iff.mpr
    ⟨fun e mem => puts e.1 e.2 (mem_toList_iff_getElem?_eq_some.mp mem), rfl⟩, written_post⟩

theorem get_prepareTxOps (k : CollKey) : (prepareTxOps codec rwset u db)[k]? =
      (TxOps.applyTxRwset codec ∅ rwset)[k]?.bind (finalKeyOps u db k) :=
  Std.ExtTreeMap.getElem?_filterMap'

end

inductive WriteOp where
  | value (v : Option Bytes)
  | metadata (m : Option Bytes)

def WriteOp.apply (op : WriteOp) (keyops : KeyOps) : KeyOps :=
  match op with
  | .value none => { keyops with flag := keyops.flag + keyDelete }
  | .value (some v) => { keyops with flag := keyops.flag + upsertVal, value := some v }
  | .metadata none => { keyops with flag := keyops.flag + metadataDelete }
  | .metadata (some m) => { keyops with flag := keyops.flag + metadataUpdate, metadata := some m }

def valueOp (ns coll : Bytes) (w : KVWrite) : CollKey × WriteOp :=
  (⟨ns, coll, w.key⟩, .value (if w.isKVWriteDelete then none else some w.value))

def metadataOp (codec : Codec) (ns coll : Bytes) (w : KVMetadataWrite) : CollKey × WriteOp :=
  (⟨ns, coll, w.key⟩, .metadata (if w.entries.isEmpty then none else some (codec.serializeMetadata w.entries)))

def collOps (codec : Codec) (ns : Bytes) (coll : CollHashedRwSet) : List (CollKey × WriteOp) :=
  (coll.hashedRwSet.hashedWrites.map (TxOps.hashedKVWrite codec)).map (valueOp ns coll.collectionName) ++
    (coll.hashedRwSet.metadataWrites.map TxOps.hashedMetadataWrite).map (metadataOp codec ns coll.collectionName)

def nsOps (codec : Codec) (nsRwSet : NsRwSet) : List (CollKey × WriteOp) :=
  nsRwSet.kvRwSet.writes.map (valueOp nsRwSet.nameSpace []) ++
    (nsRwSet.kvRwSet.metadataWrites.map (metadataOp codec nsRwSet.nameSpace []) ++
      nsRwSet.collHashedRwSets.flatMap (collOps codec nsRwSet.nameSpace))

/-- The writes of a transaction in the order in which they are collected; public keys have the empty
collection. -/
def writeOps (codec : Codec) (rwset : TxRwSet) : List (CollKey × WriteOp) :=
  rwset.nsRwSets.flatMap (nsOps codec)

def applyOp (txops : TxOps) (op : CollKey × WriteOp) : TxOps :=
  txops.insert op.1 (op.2.apply (txops.getOrCreateKeyEntry op.1))

theorem applyKVWrite_eq (ns coll : Bytes) (txops : TxOps) (w : KVWrite) :
    TxOps.applyKVWrite ns coll txops w = applyOp txops (valueOp ns coll w) := by
  unfold TxOps.applyKVWrite valueOp applyOp
  split <;> rfl

theorem applyMetadata_eq (codec : Codec) (ns coll : Bytes) (txops : TxOps) (w : KVMetadataWrite) :
    TxOps.applyMetadata codec ns coll txops w = applyOp txops (metadataOp codec ns coll w) := by
  unfold TxOps.applyMetadata metadataOp applyOp
  split <;> rfl

theorem applyTxRwset_eq (codec : Codec) (txops : TxOps) (rwset : TxRwSet) :
    TxOps.applyTxRwset codec txops rwset = (writeOps codec rwset).foldl applyOp txops := by
  have value : ∀ ns coll, TxOps.applyKVWrite ns coll = fun txops w => applyOp txops (valueOp ns coll w) :=
    fun ns coll => funext₂ (applyKVWrite_eq ns coll)
  have metadata : ∀ ns coll, TxOps.applyMetadata codec ns coll = fun txops w => applyOp txops (metadataOp codec ns coll w) :=
    fun ns coll => funext₂ (applyMetadata_eq codec ns coll)
  simp only [writeOps, nsOps, collOps, foldl_flatMap, foldl_append, foldl_map, TxOps.applyTxRwset]
  congr 1
  funext txops nsRwSet
  simp only [TxOps.applyNsRwSet, value, metadata]
  congr 1
  funext txops coll
  simp [TxOps.applyCollHashedRwSet, value, metadata, foldl_map]

def opsOn (k : CollKey) (ops : List (CollKey × WriteOp)) : List WriteOp :=
  (ops.filter (·.1 = k)).map (·.2)

@[simp] theorem opsOn_cons_self (op : CollKey × WriteOp) (ops : List (CollKey × WriteOp)) :
    opsOn op.1 (op :: ops) = op.2 :: opsOn op.1 ops := by
  simp [opsOn]

@[simp] theorem opsOn_cons_of_ne {op : CollKey × WriteOp} (other : op.1 ≠ k)
    (ops : List (CollKey × WriteOp)) : opsOn k (op :: ops) = opsOn k ops := by
  simp [opsOn, other]

theorem get_foldl_applyOp (ops : List (CollKey × WriteOp)) (txops : TxOps) (k : CollKey) : (ops.foldl applyOp txops)[k]? =
      if opsOn k ops = [] then txops[k]?
      else some ((opsOn k ops).foldl (fun keyops op => op.apply keyops) (txops.getOrCreateKeyEntry k)) := by
  induction ops generalizing txops with
  | nil => simp [opsOn]
  | cons op ops ih =>
    rw [foldl_cons, ih]
    by_cases same : op.1 = k
    · subst same
      have written : (applyOp txops op)[op.1]? = some (op.2.apply (txops.getOrCreateKeyEntry op.1)) := by
        simp [applyOp]
      cases later : opsOn op.1 ops <;> simp [written, later, TxOps.getOrCreateKeyEntry]
    · have kept : (applyOp txops op)[k]? = txops[k]? := by
        simp [applyOp, same, getElem?_insert]
      simp [kept, same, TxOps.getOrCreateKeyEntry]

def writtenKeys (codec : Codec) (rwset : TxRwSet) : List CollKey :=
  (writeOps codec rwset).map (·.1)

theorem mem_writtenKeys {codec : Codec} {rwset : TxRwSet} {u : PubAndHashUpdates} {db : DB}
    (found : (prepareTxOps codec rwset u db)[k]?.isSome) : k ∈ writtenKeys codec rwset := by
  by_contra other
  have none : opsOn k (writeOps codec rwset) = [] := by
    simp only [opsOn, map_eq_nil_iff, filter_eq_nil_iff, decide_eq_true_eq]
    exact fun op mem same => other (mem_map.mpr ⟨op, mem, same⟩)
  rw [get_prepareTxOps, applyTxRwset_eq, get_foldl_applyOp, if_pos none] at found
  simp at found

end Fabric.Proof.Validation
