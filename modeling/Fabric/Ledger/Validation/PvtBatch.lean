import Fabric.Ledger.Validation.Validator

/-! # The private updates of a block -/

namespace Fabric.Ledger

def hashedCompositeKey (codec : Codec) (k : CollKey) : CollKey := ⟨k.ns, k.coll, codec.computeHash k.key⟩

end Fabric.Ledger

namespace Fabric.Ledger.Validation

open Lib Ledger

abbrev TxPvtDataMap := Map Nat TxPvtRwSet

def retrieveHashedColl (rwset : TxRwSet) (ns coll : Bytes) : Option CollHashedRwSet :=
  (rwset.nsRwSets.filter (·.nameSpace = ns)).findSome? fun nsData =>
    nsData.collHashedRwSets.find? (·.collectionName = coll)

def Transaction.retrieveHash (t : Transaction) (ns coll : Bytes) : Option Bytes :=
  (retrieveHashedColl t.rwset ns coll).bind (·.pvtRwSetHash)

-- An absent hash and an empty one are equal byte slices.
def validateCollPvtdata (codec : Codec) (tx : Transaction) (ns : Bytes) (coll : CollPvtRwSet) : Result Unit :=
  let collPvtdataHash := codec.computeHash (codec.marshalKVRWSet coll.kvRwSet)
  let hashInPubdata := tx.retrieveHash ns coll.collectionName
  if collPvtdataHash = hashInPubdata.getD [] then .ok ()
  else .error (.error (s!"hash of pvt data for collection [{ns}:{coll.collectionName}] does not match with the " ++
    s!"corresponding hash in the public data. public hash = [{hashInPubdata}], pvt data hash = [{collPvtdataHash}]"))

def validatePvtdata (codec : Codec) (tx : Transaction) (pvtdata : TxPvtRwSet) : Result Unit :=
  pvtdata.nsPvtRwSet.forM fun ns => ns.collPvtRwSets.forM (validateCollPvtdata codec tx ns.nameSpace)

end Fabric.Ledger.Validation
