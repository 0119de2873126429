import Fabric.Lib.Transition

/-! # The block writer of a channel -/

namespace Fabric.Multichannel

inductive Content where
  | normal
  | config (sequence : Nat)
  | ordererTransaction

structure Block where
  number : Nat
  content : Content

structure Stored where
  block : Block
  -- In the metadata of the block, and in the orderer metadata that is signed.
  lastConfig : Nat
  signedLastConfig : Nat

structure BlockWriter where
  sequence : Nat
  lastConfigBlockNum : Nat
  lastConfigSeq : Nat
  lastBlock : Block
  committingBlock : Bool
  ledger : List Stored

def BlockWriter.addLastConfig (bw : BlockWriter) : BlockWriter :=
  if bw.lastConfigSeq < bw.sequence then
    { bw with lastConfigBlockNum := bw.lastBlock.number, lastConfigSeq := bw.sequence }
  else bw

/-- None when the ledger does not take the block, which ends the process. -/
def BlockWriter.commitBlock (bw : BlockWriter) : Option BlockWriter :=
  let bw := bw.addLastConfig
  if bw.lastBlock.number = bw.ledger.length then
    some { bw with
      committingBlock := false
      ledger := bw.ledger ++ [⟨bw.lastBlock, bw.lastConfigBlockNum, bw.lastConfigBlockNum⟩] }
  else none

def Content.configSequence : Content → Option Nat
  | .config sequence => some sequence
  | _ => none

def configSequence (ledger : List Stored) (index : Nat) : Option Nat :=
  ledger[index]?.bind fun s => s.block.content.configSequence

def newBlockWriter (ledger : List Stored) : Option BlockWriter := do
  let tip ← ledger.getLast?
  let sequence ← configSequence ledger tip.signedLastConfig
  some {
    sequence
    lastConfigBlockNum := if tip.block.number ≠ 0 then tip.signedLastConfig else 0
    lastConfigSeq := sequence
    lastBlock := tip.block
    committingBlock := false
    ledger }

inductive Step where
  | writeBlock (block : Block)
  | commitBlock
  | writeBlockSync (block : Block)
  | writeConfigBlock (block : Block)
  | restart

def BlockWriter.step (bw : BlockWriter) : Step → Option BlockWriter
  | .writeBlock block => if bw.committingBlock then none else some { bw with lastBlock := block, committingBlock := true }
  | .commitBlock => if bw.committingBlock then bw.commitBlock else none
  | .writeBlockSync block => if bw.committingBlock then none else { bw with lastBlock := block }.commitBlock
  | .writeConfigBlock block =>
    if bw.committingBlock then none
    else match block.content with
      | .config sequence =>
        if sequence ≠ bw.sequence + 1 then none else { bw with sequence, lastBlock := block }.commitBlock
      | .ordererTransaction => { bw with lastBlock := block }.commitBlock
      | .normal => none
  | .restart => newBlockWriter bw.ledger

end Fabric.Multichannel
