import Fabric.Lib.Result

/-! # Recovery of the state and history databases -/

namespace Fabric.Ledger.DBRecovery

open Lib

variable {B S H : Type}

structure Database (S : Type) where
  savepoint : Option Nat
  content : S

def Database.shouldRecover {S : Type} (db : Database S) (lastAvailableBlock : Nat) : Bool × Nat :=
  match db.savepoint with
  | none => (true, 0)
  | some blockNum => (blockNum ≠ lastAvailableBlock, blockNum + 1)

def Database.commitLostBlock {S : Type} (apply : B → S → S) (blockNum : Nat) (block : B) (db : Database S) : Database S :=
  ⟨some blockNum, apply block db.content⟩

inductive Recoverable where
  | state
  | history
  deriving DecidableEq

def Recoverable.name : Recoverable → String
  | .state => "state"
  | .history => "history"

/-- A ledger created from a snapshot has the blocks after the snapshot's last block only. -/
structure KvLedger (B S H : Type) where
  ledgerID : String
  bootSnapshotMetadata : Option Nat
  blocks : List B
  stateDB : Database S
  historyDB : Option (Database H)

structure Effects (B S H : Type) where
  state : B → S → S
  history : B → H → H

namespace KvLedger

variable (effects : Effects B S H) (l : KvLedger B S H)

def firstBlock : Nat := l.bootSnapshotMetadata.elim 0 (· + 1)

def height : Nat := l.firstBlock + l.blocks.length

def getPvtDataAndBlockByNum (blockNum : Nat) : Result B :=
  match if blockNum < l.firstBlock then none else l.blocks[blockNum - l.firstBlock]? with
  | none => .error (.error "no such block number in index")
  | some block => .ok block

def shouldRecover (lastAvailableBlock : Nat) : Recoverable → Option (Bool × Nat)
  | .state => some (l.stateDB.shouldRecover lastAvailableBlock)
  | .history => l.historyDB.map (·.shouldRecover lastAvailableBlock)

def commitLostBlock (blockNum : Nat) (block : B) (l : KvLedger B S H) : Recoverable → KvLedger B S H
  | .state => { l with stateDB := l.stateDB.commitLostBlock effects.state blockNum block }
  | .history => { l with historyDB := l.historyDB.map (·.commitLostBlock effects.history blockNum block) }

def recommitLostBlocks (firstBlockNum lastBlockNum : Nat) (recoverables : List Recoverable) : Result (KvLedger B S H) :=
  (List.range' firstBlockNum (lastBlockNum + 1 - firstBlockNum)).foldlM (fun l blockNumber => do
    let block ← l.getPvtDataAndBlockByNum blockNumber
    .ok (recoverables.foldl (commitLostBlock effects blockNumber block) l)) l

def newRecoverer (lastBlockInBlockStore : Nat) (recoverable : Recoverable) : Result (Option (Nat × Recoverable)) :=
  let dbName := recoverable.name
  match l.shouldRecover lastBlockInBlockStore recoverable with
  | none => .ok none
  | some (recoverFlag, nextRequiredBlock) =>
    match l.bootSnapshotMetadata.filter (nextRequiredBlock ≤ ·) with
    | some lastBlockInSnapshot =>
      .error (.error (s!"recovery for DB [{dbName}] not possible. Ledger [{l.ledgerID}] is created from a snapshot. " ++
        s!"Last block in snapshot = [{lastBlockInSnapshot}], DB needs block [{nextRequiredBlock}] onward"))
    | none =>
      if nextRequiredBlock > lastBlockInBlockStore + 1 then
        .error (.error (s!"the {dbName} database [height={nextRequiredBlock}] is ahead of the block store " ++
          s!"[height={lastBlockInBlockStore + 1}]. " ++
          s!"This is possible when the {dbName} database is not dropped after a ledger reset/rollback. " ++
          s!"The {dbName} database can safely be dropped and will be rebuilt up to block store height upon the next peer start"))
      else .ok (if recoverFlag then some (nextRequiredBlock, recoverable) else none)

def syncStateAndHistoryDBWithBlockstore : Result (KvLedger B S H) :=
  if l.height = 0 then .ok l
  else do
    let lastBlockInBlockStore := l.height - 1
    let state ← l.newRecoverer lastBlockInBlockStore .state
    let history ← l.newRecoverer lastBlockInBlockStore .history
    match state.toList ++ history.toList with
    | [] => .ok l
    | [(nextRequiredBlock, recoverable)] =>
      l.recommitLostBlocks effects nextRequiredBlock lastBlockInBlockStore [recoverable]
    | first :: second :: _ => do
      let (lagger, other) := if first.1 > second.1 then (second, first) else (first, second)
      let l ← if lagger.1 ≠ other.1 then l.recommitLostBlocks effects lagger.1 (other.1 - 1) [lagger.2] else .ok l
      l.recommitLostBlocks effects other.1 lastBlockInBlockStore [lagger.2, other.2]

end KvLedger

end Fabric.Ledger.DBRecovery
