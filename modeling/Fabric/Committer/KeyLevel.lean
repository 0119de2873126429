import Fabric.Ledger.Rwset

/-! # Key-level endorsement policies -/

namespace Fabric.Committer

open Ledger

inductive TxValidationError where
  | executionFailure (err : String)
  | endorsementPolicy (err : String)

inductive ParameterError where
  | updated (err : String)
  | collConfig
  | other (err : String)

/-- A call of `Evaluate`, and what it asks; the answers stay the same during the call. -/
structure Evaluator (SignedData : Type) where
  cc : Bytes
  blockNum : Nat
  txNum : Nat
  sd : List SignedData
  ccEP : Bytes
  getValidationParameterForKey : (cc coll key : Bytes) → (blockNum txNum : Nat) → Except ParameterError Bytes
  fetchState : Except String Unit
  collectionValidationInfo : (cc coll : Bytes) → Bytes × Option String × Option String
  policySupport : Bytes → List SignedData → Except String Unit

structure PolicyChecker where
  someEPChecked : Bool
  nsEPChecked : List Bytes
  -- Not in the source: the policies that were evaluated without an error.
  evaluated : List Bytes

variable {SignedData : Type} (e : Evaluator SignedData) (p : PolicyChecker)

def Evaluator.fetchCollEP (coll : Bytes) : Except TxValidationError Bytes :=
  match e.fetchState, e.collectionValidationInfo e.cc coll with
  | .error err, _ => .error (.executionFailure s!"could not retrieve ledger: {err}")
  | .ok (), (_, some unexpectedErr, _) => .error (.executionFailure unexpectedErr)
  | .ok (), (_, none, some validationErr) => .error (.endorsementPolicy validationErr)
  | .ok (), (collEP, none, none) => .ok collEP

def Evaluator.check (policy : Bytes) (what : String) : Except TxValidationError PolicyChecker :=
  match e.policySupport policy e.sd with
  | .error err => .error (.endorsementPolicy s!"validation of {what} in tx {e.blockNum}:{e.txNum} failed: {err}")
  | .ok () => .ok { p with someEPChecked := true, evaluated := policy :: p.evaluated }

def Evaluator.checkCCEP : Except TxValidationError PolicyChecker := do
  let p ← e.check p e.ccEP s!"endorsement policy for chaincode {e.cc}"
  .ok { p with nsEPChecked := [] :: p.nsEPChecked }

def Evaluator.checkCCEPIfNotChecked (coll : Bytes) : Except TxValidationError PolicyChecker :=
  if coll ∈ p.nsEPChecked then .ok p
  else do
    let collEP ← (if coll = [] then .ok [] else e.fetchCollEP coll)
    if collEP ≠ [] then do
      let p ← e.check p collEP s!"endorsement policy for collection {coll} chaincode {e.cc}"
      .ok { p with nsEPChecked := coll :: p.nsEPChecked }
    else if [] ∈ p.nsEPChecked then .ok p
    else e.checkCCEP p

def Evaluator.checkCCEPIfNoEPChecked : Except TxValidationError PolicyChecker :=
  if p.someEPChecked then .ok p else e.checkCCEP p

def Evaluator.checkSBAndCCEP (write : Bytes × Bytes) : Except TxValidationError PolicyChecker :=
  match e.getValidationParameterForKey e.cc write.1 write.2 e.blockNum e.txNum with
  | .error (.updated err) => .error (.endorsementPolicy err)
  | .error (.other err) => .error (.executionFailure err)
  | .error .collConfig | .ok [] => e.checkCCEPIfNotChecked p write.1
  | .ok (b :: vp) => e.check p (b :: vp) s!"key {write.2} (coll'{write.1}':ns'{e.cc}')"

/-- The collection and the key of every write, in the order of the loops; public keys have the empty collection. -/
def writesOf (nsRWSet : NsRwSet) : List (Bytes × Bytes) :=
  nsRWSet.kvRwSet.writes.map (([], ·.key)) ++ nsRWSet.kvRwSet.metadataWrites.map (([], ·.key)) ++
    nsRWSet.collHashedRwSets.flatMap (fun c => c.hashedRwSet.hashedWrites.map ((c.collectionName, ·.keyHash))) ++
    nsRWSet.collHashedRwSets.flatMap fun c => c.hashedRwSet.metadataWrites.map ((c.collectionName, ·.keyHash))

def Evaluator.evaluate (nsRwSets : List NsRwSet) : Except TxValidationError PolicyChecker := do
  let writes := (nsRwSets.filter (·.nameSpace = e.cc)).flatMap writesOf
  let p ← writes.foldlM e.checkSBAndCCEP ⟨false, [], []⟩
  e.checkCCEPIfNoEPChecked p

end Fabric.Committer
