import Fabric.Lib.Transition
import Fabric.Ledger.Statedb

/-! # Raft snapshots of an orderer -/

namespace Fabric.Etcdraft.Snapshots

open Lib Ledger

structure ConfigMetadata where
  snapshotIntervalSize : Nat
  deriving DecidableEq

inductive BlockType where
  | normal
  | config (metadata : Option ConfigMetadata)
  | ordererTransaction (metadata : Option ConfigMetadata)
  deriving DecidableEq

structure Block where
  number : Nat
  type : BlockType
  data : Bytes
  deriving DecidableEq

inductive Entry where
  | normal (block : Block) (size : Nat)
  | empty
  | confChange

def Entry.block? : Entry → Option Block
  | .normal block _ => some block
  | _ => none

structure Snapshot where
  index : Nat
  block : Block

structure LedgerBlock where
  block : Block
  raftIndex : Nat

structure Node where
  ledger : List LedgerBlock
  snapshot : Option Snapshot
  lastIndex : Nat
  delivered : Nat
  appliedIndex : Nat
  lastBlock : Block
  raftIndex : Nat
  sizeLimit : Nat
  accDataSize : Nat
  gc : Option Snapshot
  taken : List Snapshot

def defaultSnapshotIntervalSize : Nat := 16 * 2 ^ 20

def configInterval (ledger : List LedgerBlock) : Nat :=
  ledger.foldl (fun size b => match b.block.type with
    | .config (some metadata) => metadata.snapshotIntervalSize
    | _ => size) 0

variable (n : Node) (block : Block)

def Node.append (raftIndex : Nat) : Node :=
  { n with ledger := n.ledger ++ [⟨block, raftIndex⟩], lastBlock := block }

def Node.setSizeLimit (metadata : Option ConfigMetadata) : Node :=
  match metadata with
  | some m => if m.snapshotIntervalSize ≠ 0 then { n with sizeLimit := m.snapshotIntervalSize } else n
  | none => n

def Node.writeConfigBlock (metadata : Option ConfigMetadata) (index : Nat) : Node :=
  let n := n.setSizeLimit metadata
  -- The metadata with the new consenters was copied before the index was set in it.
  let n := if metadata.isSome then n else { n with raftIndex := index }
  n.append block n.raftIndex

def Node.writeBlock (index : Nat) : Result Node :=
  if n.lastBlock.number + 1 < block.number then
    .error (.panic s!"Got block [{block.number}], expect block [{n.lastBlock.number + 1}]")
  else if block.number < n.lastBlock.number + 1 then .ok n
  else match block.type with
    | .config metadata => .ok (n.writeConfigBlock block metadata index)
    | .normal | .ordererTransaction _ => .ok ({ n with raftIndex := index }.append block index)

def Node.applyEntry (entry : Entry) : Result Node := do
  let index := n.delivered + 1
  let n ← match entry with
    | .normal block size => do
      let n := { n with accDataSize := (n.accDataSize + size) % 2 ^ 32 }
      if index ≤ n.appliedIndex then .ok n else n.writeBlock block index
    | .empty | .confChange => .ok n
  .ok { n with delivered := index, appliedIndex := max n.appliedIndex index }

def Node.requestSnapshot : Node :=
  let s : Snapshot := ⟨n.appliedIndex, block⟩
  { n with accDataSize := 0, gc := some s, taken := n.taken ++ [s] }

def Node.apply (ents : List Entry) (gcIdle : Bool) : Result Node := do
  if n.appliedIndex + 1 < n.delivered + 1 then
    .error (.panic s!"first index of committed entry[{n.delivered + 1}] should <= appliedIndex[{n.appliedIndex}]+1")
  else
    let n ← ents.foldlM Node.applyEntry n
    match (ents.filterMap Entry.block?).getLast? with
    | none => .ok n
    | some block =>
      if n.sizeLimit ≤ n.accDataSize ∧ gcIdle = true ∧ n.gc = none then .ok (n.requestSnapshot block)
      else .ok n

variable (s : Snapshot)

def Node.takeSnapshot : Result Node :=
  if n.snapshot.any fun old => s.index ≤ old.index then .ok { n with gc := none }
  else if n.lastIndex < s.index then .error (.panic s!"snapshot {s.index} is out of bound lastindex({n.lastIndex})")
  else .ok { n with snapshot := some s, gc := none }

def Node.commitBlock (b : LedgerBlock) : Node :=
  match b.block.type with
  | .normal => n.append b.block b.raftIndex
  | .config metadata | .ordererTransaction metadata => (n.append b.block b.raftIndex).setSizeLimit metadata

def Node.pullBlocks (pull : Nat → Option LedgerBlock) : (missing : Nat) → Node → Result Node
  | 0, n => .ok n
  | missing + 1, n =>
    match pull (n.lastBlock.number + 1) with
    | none => .error (.panic s!"failed to fetch block [{n.lastBlock.number + 1}] from cluster")
    | some b => Node.pullBlocks pull missing (n.commitBlock b)

def Node.catchUp (pull : Nat → Option LedgerBlock) : Result Node :=
  if s.block.number ≤ n.lastBlock.number then .ok n
  else if s.block.number = n.lastBlock.number + 1 then .ok (n.commitBlock ⟨s.block, 0⟩)
  else n.pullBlocks pull (s.block.number - n.lastBlock.number)

def Node.recover (pull : Nat → Option LedgerBlock) : Result Node :=
  if s.index ≤ n.appliedIndex then .ok n
  else Node.catchUp { n with appliedIndex := s.index } s pull

-- A block that was being written in the background may be lost.
def Node.survivingLedger (lost : Bool) : List LedgerBlock :=
  if lost && n.lastBlock.type = .normal && n.lastBlock.number ≠ 0 then n.ledger.dropLast else n.ledger

def Node.restart (lost : Bool) (genesis : Block) (pull : Nat → Option LedgerBlock) : Result Node :=
  let ledger := n.survivingLedger lost
  let last := ledger.getLast?.getD ⟨genesis, 0⟩
  let interval := configInterval ledger
  let restarted : Node := { n with
    ledger
    delivered := n.snapshot.elim 0 (·.index)
    appliedIndex := last.raftIndex
    lastBlock := last.block
    raftIndex := last.raftIndex
    sizeLimit := if interval = 0 then defaultSnapshotIntervalSize else interval
    accDataSize := 0
    gc := none }
  match n.snapshot with
  | none => .ok restarted
  | some s => restarted.recover s pull

variable (genesis : Block)

def newNode : Node where
  ledger := [⟨genesis, 0⟩]
  snapshot := none
  lastIndex := 0
  delivered := 0
  appliedIndex := 0
  lastBlock := genesis
  raftIndex := 0
  sizeLimit :=
    let interval := configInterval [⟨genesis, 0⟩]
    if interval = 0 then defaultSnapshotIntervalSize else interval
  accDataSize := 0
  gc := none
  taken := []

abbrev Cluster := Nat → Node

inductive Step where
  | store (node lastIndex : Nat)
  | apply (node count : Nat) (gcIdle : Bool)
  | takeSnapshot (node : Nat)
  | restart (node : Nat) (lost : Bool) (source : Nat → Nat)
  | restore (node sender : Nat) (source : Nat → Nat)

def Cluster.pull (c : Cluster) (source : Nat → Nat) (number : Nat) : Option LedgerBlock :=
  (c (source number)).ledger[number]?

def Cluster.batch (log : List Entry) (c : Cluster) (node count : Nat) : List Entry :=
  (log.drop (c node).delivered).take count

def Cluster.step (log : List Entry) (c : Cluster) : Step → Result Cluster
  | .store node lastIndex =>
    if (c node).delivered ≤ lastIndex then .ok (Function.update c node { c node with lastIndex })
    else .error (.error "delivered entries stay in the log")
  | .apply node count gcIdle =>
    if (c node).delivered + count ≤ min (c node).lastIndex log.length ∧ 0 < count then do
      let n ← (c node).apply (c.batch log node count) gcIdle
      .ok (Function.update c node n)
    else .error (.error "no such entries")
  | .takeSnapshot node =>
    match (c node).gc with
    | none => .error (.error "no snapshot requested")
    | some s => do
      let n ← (c node).takeSnapshot s
      .ok (Function.update c node n)
  | .restart node lost source => do
    let n ← (c node).restart lost genesis (c.pull source)
    .ok (Function.update c node n)
  | .restore node sender source =>
    match (c sender).snapshot with
    | none => .error (.error "no snapshot")
    | some s =>
      if (c node).delivered < s.index then do
        let n ← Node.recover { c node with snapshot := some s, lastIndex := s.index, delivered := s.index } s (c.pull source)
        .ok (Function.update c node n)
      else .error (.error "snapshot is out of date")

def newCluster : Cluster := fun _ => newNode genesis

end Fabric.Etcdraft.Snapshots
