import Fabric.Lib.Transition
import Fabric.Ledger.Rwset

/-! # State transfer of a channel -/

namespace Fabric.Gossip

open Lib Ledger

structure Payload where
  seqNum : Nat
  data : Bytes
  privateData : Option (List Bytes)
  deriving DecidableEq

structure Block where
  header : Option Nat
  data : Option (List Bytes)

structure TxPvtData where
  seqInBlock : Nat
  writeSet : TxPvtRwSet

structure StateConfig where
  unmarshalBlock : Bytes → Option Block
  unmarshalPvtDataPayload : Bytes → Option (Nat × Bytes)
  unmarshalTxPvtRwSet : Bytes → Option TxPvtRwSet
  wellSigned : Block → Bool
  blockingMode : Bool
  stateBlockBufferSize : Nat

structure PayloadsBuffer where
  next : Nat
  buf : Map Nat Payload
  readyChan : Bool

def newPayloadsBuffer (next : Nat) : PayloadsBuffer := ⟨next, ∅, false⟩

variable (b : PayloadsBuffer)

def PayloadsBuffer.push (payload : Payload) : PayloadsBuffer :=
  if payload.seqNum < b.next ∨ payload.seqNum ∈ b.buf then b
  else { b with
    buf := b.buf.insert payload.seqNum payload
    readyChan := if payload.seqNum = b.next ∧ b.readyChan = false then true else b.readyChan }

def PayloadsBuffer.drainReadChannel : PayloadsBuffer :=
  if b.buf.size = 0 then { b with readyChan := false } else b

def PayloadsBuffer.pop : Option (Payload × PayloadsBuffer) :=
  b.buf[b.next]?.map fun result => (result, { b with buf := b.buf.erase b.next, next := b.next + 1 }.drainReadChannel)

variable (conf : StateConfig)

def verifyBlock (seqNum : Nat) (block : Block) : Bool :=
  block.header == some seqNum && block.data.any (!·.isEmpty) && conf.wellSigned block

def unmarshalPvtData (data : List Bytes) : Option (List TxPvtData) :=
  data.mapM fun each => do
    let payload ← conf.unmarshalPvtDataPayload each
    let pvtRWSet ← conf.unmarshalTxPvtRwSet payload.2
    some ⟨payload.1, pvtRWSet⟩

def readPrivateData (payload : Payload) : Option (List TxPvtData) :=
  unmarshalPvtData conf (payload.privateData.getD [])

def readPayload (payload : Payload) : Option (Nat × List TxPvtData) := do
  let rawBlock ← conf.unmarshalBlock payload.data
  let _ ← rawBlock.data
  let number ← rawBlock.header
  let p ← readPrivateData conf payload
  some (number, p)

inductive Adder where
  | verifying (rest : List Payload)
  | checking (payload : Payload) (blocking : Bool) (rest : List Payload)
  | waiting (payload : Payload) (rest : List Payload)
  | pushing (payload : Payload) (rest : List Payload)

-- `uint64` subtraction, so that a block below the height is far ahead of it.
def tooFarAhead (height seqNum : Nat) : Bool :=
  decide (conf.stateBlockBufferSize ≤ (seqNum + 2 ^ 64 - height) % 2 ^ 64)

def Adder.step (height : Nat) (b : PayloadsBuffer) : Adder → PayloadsBuffer × Option Adder
  | .verifying [] => (b, none)
  | .verifying (payload :: rest) =>
    if (conf.unmarshalBlock payload.data).any (verifyBlock conf payload.seqNum) then
      (b, some (.checking payload true rest))
    else (b, none)
  | .checking payload false rest =>
    if tooFarAhead conf height payload.seqNum then (b, some (.verifying rest))
    else (b, some (.pushing payload rest))
  | .checking payload true rest => (b, some (.waiting payload rest))
  | .waiting payload rest =>
    if conf.stateBlockBufferSize * 2 < b.buf.size then (b, some (.waiting payload rest))
    else (b, some (.pushing payload rest))
  | .pushing payload rest => (b.push payload, some (.verifying rest))

inductive StoreResult where
  | stored
  | executionFailure
  | failure

def storeResult (height number : Nat) (result : StoreResult) : StoreResult :=
  if number = height then result else match result with
    | .stored => .failure
    | result => result

inductive Deliverer where
  | waiting
  | popping
  | popped (payload : Payload)
  | aborted
  | panicked (number height : Nat)
  | stopped
  deriving DecidableEq

structure StateProvider where
  payloads : PayloadsBuffer
  adders : List Adder
  deliverer : Deliverer
  height : Nat
  handed : List Nat
  stopping : Bool

def newStateProvider (height : Nat) : Result StateProvider :=
  if height = 0 then
    .error (.panic "Committer height cannot be zero, ledger should include at least one block (genesis).")
  else .ok ⟨newPayloadsBuffer height, [], .waiting, height, [], false⟩

variable (s : StateProvider)

def StateProvider.commitBlock (number : Nat) (result : StoreResult) : StateProvider :=
  let s := { s with handed := s.handed ++ [number] }
  match storeResult s.height number result with
  | .stored => { s with deliverer := .popping, height := s.height + 1 }
  | .executionFailure => { s with deliverer := .aborted }
  | .failure => { s with deliverer := .panicked number s.height }

def StateProvider.deliverPayloads (result : StoreResult) :
    Option StateProvider :=
  match s.deliverer with
  | .waiting =>
    if s.payloads.readyChan then some { s with payloads.readyChan := false, deliverer := .popping } else none
  | .popping =>
    match s.payloads.pop with
    | none => some { s with deliverer := .waiting }
    | some (payload, payloads) => some { s with payloads := payloads, deliverer := .popped payload }
  | .popped payload =>
    match readPayload conf payload with
    | none => some { s with deliverer := .popping }
    | some (number, _) => some (s.commitBlock number result)
  | _ => none

inductive Step where
  | gossip (payload : Payload)
  | addPayload (payload : Payload)
  | respond (payloads : List Payload)
  | add (i : Nat)
  | deliver (result : StoreResult)
  | stop
  | finish

def StateProvider.start (a : Adder) : StateProvider := { s with adders := s.adders ++ [a] }

def StateProvider.advance (i : Nat) (a : Adder) : StateProvider :=
  let r := a.step conf s.height s.payloads
  { s with
    payloads := r.1
    adders := match r.2 with
      | none => s.adders.eraseIdx i
      | some a => s.adders.set i a }

def StateProvider.step : Step → Option StateProvider
  | .gossip payload => some (s.start (.checking payload false []))
  | .addPayload payload => some (s.start (.checking payload conf.blockingMode []))
  | .respond payloads => some (s.start (.verifying payloads))
  | .add i => s.adders[i]?.map (s.advance conf i)
  | .deliver result => s.deliverPayloads conf result
  | .stop => some { s with stopping := true }
  | .finish => if s.stopping && s.deliverer == .waiting then some { s with deliverer := .stopped } else none

end Fabric.Gossip
