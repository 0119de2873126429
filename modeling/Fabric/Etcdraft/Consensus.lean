import Fabric.Lib.Transition
import Fabric.Ledger.Statedb

/-! # Agreement of the orderers of a channel -/

namespace Fabric.Etcdraft.Consensus

open Lib Ledger

structure Header where
  number : Nat
  previousHash : Bytes
  dataHash : Bytes
  deriving DecidableEq

inductive BlockData where
  | normal (envelopes : List Bytes)
  | config (envelope : Bytes) (newConsenters : Bool)
  deriving DecidableEq

structure Block where
  header : Header
  data : BlockData
  deriving DecidableEq

inductive Entry where
  | normal (block : Block)
  | empty
  | confChange
  deriving DecidableEq

def Entry.block? : Entry → Option Block
  | .normal block => some block
  | _ => none

structure Env (Config : Type) where
  blockDataHash : BlockData → Bytes
  blockHeaderHash : Header → Bytes
  validate : Config → Bytes → Bool
  createBundle : Bytes → Config
  genesis : Block
  genesisConfig : Config
  first : genesis.header.number = 0

variable {Config : Type}

structure BlockCreator where
  hash : Bytes
  number : Nat

def BlockCreator.createNextBlock (env : Env Config) (bc : BlockCreator) (data : BlockData) : Block × BlockCreator :=
  let number := bc.number + 1
  let block : Block := ⟨⟨number, bc.hash, env.blockDataHash data⟩, data⟩
  (block, ⟨env.blockHeaderHash block.header, number⟩)

structure LedgerBlock where
  block : Block
  raftIndex : Nat

structure Apply where
  entries : List Entry
  lead : Bool

structure Node (Config : Type) where
  storage : List Entry
  log : List Entry
  commit : Nat
  raftLead : Bool
  applyC : Option Apply
  ledger : List LedgerBlock
  config : Config
  delivered : Nat
  appliedIndex : Nat
  lastBlock : Block
  raftIndex : Nat
  lead : Bool
  justElected : Bool
  configInflight : Bool
  bc : Option BlockCreator
  propC : List Block
  -- The queues of cancelled proposers that have not noticed it.
  leftover : List (List Block)

variable (env : Env Config)

def Node.append (n : Node Config) (block : Block) (raftIndex : Nat) : Result (Node Config) :=
  let last := (n.ledger.getLast?.map (·.block)).getD env.genesis
  if block.header.number ≠ n.ledger.length then
    .error (.panic s!"Could not append block: block number should have been {n.ledger.length} but was {block.header.number}")
  else if block.header.previousHash ≠ env.blockHeaderHash last.header then
    .error (.panic "Could not append block: unexpected Previous block hash")
  else .ok { n with ledger := n.ledger ++ [⟨block, raftIndex⟩] }

variable (n : Node Config)

def Node.writeConfigBlock (block : Block) (envelope : Bytes) (newConsenters : Bool) (index : Nat) :
    Result (Node Config) :=
  let n := { n with configInflight := false }
  -- The metadata with the new consenters was copied before the index was set in it.
  let n := if newConsenters then n else { n with raftIndex := index }
  if env.validate n.config envelope then
    { n with config := env.createBundle envelope }.append env block n.raftIndex
  else .error (.panic "Told to write a config block with new config, but could not apply it")

def Node.writeBlock (block : Block) (index : Nat) : Result (Node Config) :=
  let expected := n.lastBlock.header.number + 1
  if expected < block.header.number then .error (.panic s!"Got block [{block.header.number}], expect block [{expected}]")
  else if block.header.number < expected then .ok n
  else
    let n := { n with lastBlock := block }
    match block.data with
    | .config envelope newConsenters => n.writeConfigBlock env block envelope newConsenters index
    | .normal _ => { n with raftIndex := index }.append env block index

def Node.applyEntry (entry : Entry) : Result (Node Config) := do
  let index := n.delivered + 1
  let n ← match entry with
    | .normal block => if index ≤ n.appliedIndex then .ok n else n.writeBlock env block index
    | .empty | .confChange => .ok n
  .ok { n with delivered := index, appliedIndex := max n.appliedIndex index }

def Node.apply (ents : List Entry) : Result (Node Config) :=
  if n.appliedIndex + 1 < n.delivered + 1 then
    .error (.panic s!"first index of committed entry[{n.delivered + 1}] should <= appliedIndex[{n.appliedIndex}]+1")
  else ents.foldlM (Node.applyEntry env) n

def Node.becomeLeader : Node Config :=
  { n with lead := true, justElected := true, propC := [] }

def Node.becomeFollower : Node Config :=
  { n with lead := false, bc := none, propC := [], leftover := n.leftover ++ [n.propC] }

def Node.observe (lead : Bool) : Node Config :=
  if lead = n.lead then n else if lead then n.becomeLeader else n.becomeFollower

def Node.serve : Node Config :=
  if n.justElected ∧ n.storage.length ≤ n.appliedIndex ∧ n.configInflight = false then
    { n with
      bc := some ⟨env.blockHeaderHash n.lastBlock.header, n.lastBlock.header.number⟩
      justElected := false }
  else n

def Node.handle (app : Apply) : Result (Node Config) := do
  let n := { n with applyC := none }.observe app.lead
  let n ← n.apply env app.entries
  .ok (n.serve env)

def Node.propose (data : BlockData) : Result (Node Config) :=
  match n.bc with
  | none => .error (.error "not serving")
  | some bc =>
    let (block, bc) := bc.createNextBlock env data
    .ok { n with
      bc := some bc
      propC := n.propC ++ [block]
      configInflight := match data with
        | .config _ _ => true
        | .normal _ => n.configInflight }

def Node.ordered (data : BlockData) : Result (Node Config) :=
  if n.lead ∧ n.justElected = false ∧ n.configInflight = false then
    match data with
    | .normal _ => n.propose env data
    | .config envelope _ =>
      if env.validate n.config envelope then n.propose env data
      else .error (.error "config update cannot be applied")
  else .error (.error "requests are not taken")

def isNormal : BlockData → Bool
  | .normal _ => true
  | .config _ _ => false

-- A block that was being written in the background may be lost.
def Node.survivingLedger (lost : Bool) : List LedgerBlock :=
  if lost && isNormal n.lastBlock.data && n.lastBlock.header.number ≠ 0 then n.ledger.dropLast else n.ledger

def readConfig (blocks : List Block) : Config :=
  blocks.foldl (fun config b => match b.data with
    | .config envelope _ => env.createBundle envelope
    | .normal _ => config) env.genesisConfig

def Node.restart (lost : Bool) : Node Config :=
  let ledger := n.survivingLedger lost
  let last := ledger.getLast?.getD ⟨env.genesis, 0⟩
  { n with
    log := n.storage
    raftLead := false
    applyC := none
    ledger
    config := readConfig env (ledger.map (·.block)).tail
    delivered := 0
    appliedIndex := last.raftIndex
    lastBlock := last.block
    raftIndex := last.raftIndex
    lead := false
    justElected := false
    configInflight := false
    bc := none
    propC := []
    leftover := [] }

def newNode : Node Config where
  storage := []
  log := []
  commit := 0
  raftLead := false
  applyC := none
  ledger := [⟨env.genesis, 0⟩]
  config := env.genesisConfig
  delivered := 0
  appliedIndex := 0
  lastBlock := env.genesis
  raftIndex := 0
  lead := false
  justElected := false
  configInflight := false
  bc := none
  propC := []
  leftover := []

structure Cluster (Config : Type) where
  committed : List Entry
  nodes : Nat → Node Config

inductive Step where
  | elect (node : Nat)
  | stepDown (node : Nat)
  | replicate (node leader length : Nat)
  | commit (leader length : Nat)
  | learn (node length : Nat)
  | ready (node count : Nat)
  | handle (node : Nat)
  | ordered (node : Nat) (data : BlockData)
  | propose (node : Nat)
  | proposeConfChange (node : Nat)
  | proposeLeftover (node proposer : Nat)
  | quit (node proposer : Nat)
  | restart (node : Nat) (lost : Bool)

def Cluster.set (c : Cluster Config) (node : Nat) (n : Node Config) : Cluster Config :=
  { c with nodes := Function.update c.nodes node n }

def Cluster.step (c : Cluster Config) : Step → Result (Cluster Config)
  | .elect node =>
    let n := c.nodes node
    -- The soft state of a candidate is handed over before its vote requests are sent, so it has stopped leading.
    if n.lead = false ∧ (n.applyC.all fun app => !app.lead) ∧ n.raftLead = false ∧ c.committed <+: n.log then
      .ok (c.set node { n with raftLead := true, log := n.log ++ [.empty] })
    else .error (.error "not elected")
  | .stepDown node => .ok (c.set node { c.nodes node with raftLead := false })
  | .replicate node leader length =>
    let n := c.nodes node
    let log := (c.nodes leader).log.take length
    if (c.nodes leader).raftLead ∧ n.raftLead = false ∧ n.commit ≤ log.length ∧ log.take n.commit = n.log.take n.commit then
      .ok (c.set node { n with log })
    else .error (.error "not appended")
  | .commit leader length =>
    let log := (c.nodes leader).log.take length
    if (c.nodes leader).raftLead ∧ c.committed <+: log then .ok { c with committed := log }
    else .error (.error "not committed")
  | .learn node length =>
    let n := c.nodes node
    if n.commit ≤ length ∧ length ≤ c.committed.length ∧ n.log.take length = c.committed.take length ∧
        n.storage.take length = c.committed.take length then
      .ok (c.set node { n with commit := length })
    else .error (.error "not known to be committed")
  | .ready node count =>
    let n := c.nodes node
    if n.applyC = none ∧ n.delivered + count ≤ n.commit then
      .ok (c.set node { n with storage := n.log, applyC := some ⟨(n.log.drop n.delivered).take count, n.raftLead⟩ })
    else .error (.error "not ready")
  | .handle node =>
    match (c.nodes node).applyC with
    | none => .error (.error "nothing to apply")
    | some app => do
      let n ← (c.nodes node).handle env app
      .ok (c.set node n)
  | .ordered node data => do
    let n ← (c.nodes node).ordered env data
    .ok (c.set node n)
  | .propose node =>
    let n := c.nodes node
    match n.propC with
    | [] => .error (.error "no block")
    | block :: rest =>
      if n.raftLead then .ok (c.set node { n with propC := rest, log := n.log ++ [.normal block] })
      else .error (.error "raft proposal dropped")
  | .proposeConfChange node =>
    let n := c.nodes node
    if n.raftLead then .ok (c.set node { n with log := n.log ++ [.confChange] })
    else .error (.error "raft proposal dropped")
  | .proposeLeftover node proposer =>
    let n := c.nodes node
    match n.leftover[proposer]? with
    | some (block :: rest) =>
      if n.raftLead then
        .ok (c.set node { n with leftover := n.leftover.set proposer rest, log := n.log ++ [.normal block] })
      else .error (.error "raft proposal dropped")
    | _ => .error (.error "no block")
  | .quit node proposer =>
    let n := c.nodes node
    .ok (c.set node { n with leftover := n.leftover.eraseIdx proposer })
  | .restart node lost => .ok (c.set node ((c.nodes node).restart env lost))

def newCluster : Cluster Config := ⟨[], fun _ => newNode env⟩

end Fabric.Etcdraft.Consensus
