import Fabric.Ledger.Validation.RangeQuery
import Fabric.Ledger.Validation.TxOps

/-! # The validator -/

namespace Fabric.Ledger.Validation

open Lib Ledger

inductive TxValidationCode where
  | valid
  | mvccReadConflict
  | phantomReadConflict
  deriving DecidableEq

structure Transaction where
  indexInBlock : Nat
  rwset : TxRwSet
  containsPostOrderWrites : Bool

structure Block where
  num : Nat
  -- The number of envelopes in the block; the transactions are those that get as far as validation.
  dataLen : Nat
  txs : List Transaction

section

variable (codec : Codec) (db : DB)

def validateKVRead (ns : Bytes) (updates : UpdateBatch) (kvRead : KVRead) : Bool :=
  let key : CompositeKey := ⟨ns, kvRead.key⟩
  if updates.updates.contains key then false
  else areSame (db.pub.getVersion key) kvRead.version

def validateReadSet (ns : Bytes) (kvReads : List KVRead) (updates : UpdateBatch) : Bool :=
  kvReads.all (validateKVRead db ns updates)

def validateRangeQueries (ns : Bytes) (updates : UpdateBatch) : List RangeQueryInfo → Result Bool
  | [] => .ok true
  | rqi :: rangeQueriesInfo => do
    let valid ← validateRangeQuery codec db.pub ns rqi updates
    if valid then validateRangeQueries ns updates rangeQueriesInfo else .ok false

def validateKVReadHash (ns coll : Bytes) (updates : Updates CollKey) (kvReadHash : KVReadHash) : Bool :=
  let key : CollKey := ⟨ns, coll, kvReadHash.keyHash⟩
  if updates.contains key then false
  else areSame (db.hashed.getVersion key) kvReadHash.version

def validateCollHashedReadSet (ns : Bytes) (updates : Updates CollKey) (collHashedRWSet : CollHashedRwSet) : Bool :=
  collHashedRWSet.hashedRwSet.hashedReads.all
    (validateKVReadHash db ns collHashedRWSet.collectionName updates)

def validateNsHashedReadSets (ns : Bytes) (collHashedRWSets : List CollHashedRwSet) (updates : Updates CollKey) :
    Bool :=
  collHashedRWSets.all (validateCollHashedReadSet db ns updates)

def validateNsRwSets (updates : PubAndHashUpdates) : List NsRwSet → Result TxValidationCode
  | [] => .ok .valid
  | nsRWSet :: nsRwSets => do
    let ns := nsRWSet.nameSpace
    if !validateReadSet db ns nsRWSet.kvRwSet.reads updates.publicUpdates then .ok .mvccReadConflict
    else
      let rangesValid ← validateRangeQueries codec db ns updates.publicUpdates nsRWSet.kvRwSet.rangeQueriesInfo
      if !rangesValid then .ok .phantomReadConflict
      else if !validateNsHashedReadSets db ns nsRWSet.collHashedRwSets updates.hashUpdates then .ok .mvccReadConflict
      else validateNsRwSets updates nsRwSets

def validateTx (txRWSet : TxRwSet) (updates : PubAndHashUpdates) : Result TxValidationCode :=
  validateNsRwSets codec db updates txRWSet.nsRwSets

def validateEndorserTX (txRWSet : TxRwSet) (doMVCCValidation : Bool) (updates : PubAndHashUpdates) :
    Result TxValidationCode :=
  if doMVCCValidation then validateTx codec db txRWSet updates else .ok .valid

end

abbrev PvtdataPurgeTracker := Map CollKey Height

def PvtdataPurgeTracker.update (rwset : TxRwSet) (version : Height) (p : PvtdataPurgeTracker) : PvtdataPurgeTracker :=
  let purges := rwset.nsRwSets.flatMap fun nsRwSet => nsRwSet.collHashedRwSets.flatMap fun collHashedRwSet =>
    (collHashedRwSet.hashedRwSet.hashedWrites.filter (·.isPurge)).map fun hashedWrite =>
      (⟨nsRwSet.nameSpace, collHashedRwSet.collectionName, hashedWrite.keyHash⟩ : CollKey)
  purges.foldl (fun p ck => p.insert ck version) p

structure Validated where
  updates : PubAndHashUpdates
  codes : List TxValidationCode
  purges : PvtdataPurgeTracker

def committingTxHeight (blockNum : Nat) (tx : Transaction) : Height := ⟨blockNum, tx.indexInBlock⟩

def validateAndApplyTx (codec : Codec) (db : DB) (doMVCCValidation : Bool) (blockNum : Nat) (v : Validated)
    (tx : Transaction) : Result Validated := do
  let code ← validateEndorserTX codec db tx.rwset doMVCCValidation v.updates
  if code = .valid then
    let height := committingTxHeight blockNum tx
    let updates ← v.updates.applyWriteSet codec tx.rwset height db tx.containsPostOrderWrites
    .ok ⟨updates, v.codes ++ [code], PvtdataPurgeTracker.update tx.rwset height v.purges⟩
  else .ok { v with codes := v.codes ++ [code] }

def validateAndPrepareBatch (codec : Codec) (db : DB) (blk : Block) (doMVCCValidation : Bool) : Result Validated :=
  blk.txs.foldlM (validateAndApplyTx codec db doMVCCValidation blk.num) ⟨newPubAndHashUpdates, [], ∅⟩

def validTxs (txs : List Transaction) (codes : List TxValidationCode) : List Transaction :=
  ((txs.zip codes).filter (·.2 = .valid)).map (·.1)

end Fabric.Ledger.Validation
