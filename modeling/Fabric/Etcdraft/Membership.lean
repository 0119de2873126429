import Fabric.Ledger.Statedb

/-! # Consenters of a channel

The Raft ids of the consenters are recomputed from each config block, on one path for blocks that arrive through Raft
and on another for fetched ones, and rebuilt after a restart. -/

namespace Fabric.Etcdraft.Membership

open Lib Ledger

structure Consenter where
  host : Bytes
  port : Nat
  clientTlsCert : Bytes
  serverTlsCert : Bytes
  deriving DecidableEq

structure BlockMetadata where
  consenterIds : List Nat
  nextConsenterId : Nat
  raftIndex : Nat

inductive ConfChange where
  | addNode (nodeID : Nat)
  | removeNode (nodeID : Nat)

structure MembershipChanges where
  newBlockMetadata : BlockMetadata
  newConsenters : Map Nat Consenter
  addedNodes : List Consenter
  removedNodes : List Consenter
  confChange : Option ConfChange
  rotatedNode : Nat

def MembershipChanges.changed (mc : MembershipChanges) : Bool := !mc.addedNodes.isEmpty || !mc.removedNodes.isEmpty

def membershipByCert (consenters : Map Nat Consenter) : Map Bytes Nat :=
  putAll ∅ (consenters.toList.map fun e => (e.2.clientTlsCert, e.1))

structure Matching where
  consenterIds : List Nat
  newConsenters : Map Nat Consenter
  addedNodeIndex : Nat
  addedNodes : List Consenter

variable (currentConsentersSet : Map Bytes Nat)

def matchConsenter (m : Matching) (ci : Consenter × Nat) : Matching :=
  match currentConsentersSet[ci.1.clientTlsCert]? with
  | some nodeID => { m with
      consenterIds := m.consenterIds.set ci.2 nodeID
      newConsenters := m.newConsenters.insert nodeID ci.1 }
  | none => { m with addedNodeIndex := ci.2, addedNodes := m.addedNodes ++ [ci.1] }

def matchConsenters (newConsenters : List Consenter) : Matching :=
  newConsenters.zipIdx.foldl (matchConsenter currentConsentersSet) ⟨List.replicate newConsenters.length 0, ∅, 0, []⟩

def computeMembershipChanges (oldMetadata : BlockMetadata) (oldConsenters : Map Nat Consenter) (newConsenters : List Consenter) :
    Result MembershipChanges :=
  let m := matchConsenters (membershipByCert oldConsenters) newConsenters
  let removed := oldConsenters.toList.filter fun e => e.2.clientTlsCert ∉ newConsenters.map (·.clientTlsCert)
  match m.addedNodes, removed with
  | [added], [(deletedNodeID, c)] =>
    .ok ⟨{ oldMetadata with consenterIds := m.consenterIds.set m.addedNodeIndex deletedNodeID },
      m.newConsenters.insert deletedNodeID added, [added], [c], none, deletedNodeID⟩
  | [added], [] =>
    let nodeID := oldMetadata.nextConsenterId
    .ok ⟨{ oldMetadata with
        consenterIds := m.consenterIds.set m.addedNodeIndex nodeID
        nextConsenterId := nodeID + 1 },
      m.newConsenters.insert nodeID added, [added], [], some (.addNode nodeID), 0⟩
  | [], [(deletedNodeID, c)] =>
    .ok ⟨{ oldMetadata with consenterIds := m.consenterIds }, m.newConsenters.erase deletedNodeID, [], [c],
      some (.removeNode deletedNodeID), 0⟩
  | [], [] => .ok ⟨{ oldMetadata with consenterIds := m.consenterIds }, m.newConsenters, [], [], none, 0⟩
  | added, removed => .error (.error ("update of more than one consenter at a time is not supported, requested changes: " ++
      s!"add {added.length} node(s), remove {removed.length} node(s)"))

variable (blockMetadata : BlockMetadata)

def confChange (voters : List Nat) : ConfChange :=
  if voters.length < blockMetadata.consenterIds.length then
    .addNode ((blockMetadata.consenterIds.filter (· ∉ voters)).getLastD 0)
  else .removeNode ((voters.filter (· ∉ blockMetadata.consenterIds)).getLastD 0)

-- The ids of a channel without consenter metadata are given out in the order of the config.
def readBlockMetadata (blockMetadata : Option BlockMetadata) (consenters : List Consenter) : BlockMetadata :=
  blockMetadata.getD ⟨List.range' 1 consenters.length, consenters.length + 1, 0⟩

def createConsentersMap (consenters : List Consenter) : Result (Map Nat Consenter) :=
  if blockMetadata.consenterIds.length < consenters.length then .error (.panic "index out of range")
  else .ok (putAll ∅ (blockMetadata.consenterIds.zip consenters))

structure Orderer where
  blockMetadata : BlockMetadata
  consenters : Map Nat Consenter
  config : List Consenter
  lastMetadata : Option BlockMetadata

/-- Blocks with what their config update says about the consenters, if it says anything. -/
inductive Block where
  | normal
  | config (consenters : Option (List Consenter))
  -- The creation of another channel by the system channel, with the consenters of the new channel.
  | ordererTransaction (consenters : Option (List Consenter))

structure Entry where
  index : Nat
  block : Block

variable (o : Orderer)

def Orderer.detectConfChange : Option (List Consenter) → Result (Option MembershipChanges)
  | none => .ok none
  | some consenters =>
    match computeMembershipChanges o.blockMetadata o.consenters consenters with
    | .ok changes => .ok (some changes)
    | .error _ => .error (.panic "illegal configuration change detected")

def Orderer.setRaftIndex (index : Nat) : Orderer :=
  { o with blockMetadata := { o.blockMetadata with raftIndex := index } }

def Orderer.setMembership (changes : MembershipChanges) : Orderer :=
  { o with blockMetadata := changes.newBlockMetadata, consenters := changes.newConsenters }

def Orderer.append (config : Option (List Consenter)) (metadata : Option BlockMetadata) : Orderer :=
  { o with config := config.getD o.config, lastMetadata := metadata }

def Orderer.writeBlock (e : Entry) : Result Orderer :=
  match e.block with
  | .normal | .ordererTransaction _ =>
    let o := o.setRaftIndex e.index
    .ok (o.append none (some o.blockMetadata))
  | .config consenters => do
    -- The new metadata is a copy of the old one, so that it keeps the index of an earlier block.
    let configMembership ← o.detectConfChange consenters
    let o := configMembership.elim (o.setRaftIndex e.index) o.setMembership
    .ok (o.append consenters (some o.blockMetadata))

/-- A block fetched from another orderer, or taken out of a Raft snapshot, with its consenter metadata. -/
def Orderer.commitBlock (block : Block) (blockMeta : Option BlockMetadata) : Result Orderer :=
  let reconfigure (o : Orderer) (consenters : Option (List Consenter)) : Result Orderer := do
    let configMembership ← o.detectConfChange consenters
    .ok ((configMembership.filter (·.changed)).elim o o.setMembership)
  match block with
  | .normal => .ok (o.append none blockMeta)
  | .config consenters => reconfigure (o.append consenters blockMeta) consenters
  -- The consenters of the new channel are taken for those of this one.
  | .ordererTransaction consenters => reconfigure (o.append none blockMeta) consenters

def Orderer.handleChain : Result Orderer := do
  let blockMetadata := readBlockMetadata o.lastMetadata o.config
  let consenters ← createConsentersMap blockMetadata o.config
  .ok { o with blockMetadata, consenters }

def newOrderer (genesis : List Consenter) : Orderer :=
  let blockMetadata := readBlockMetadata none genesis
  ⟨blockMetadata, putAll ∅ (blockMetadata.consenterIds.zip genesis), genesis, none⟩

/-- Certificates and options of a consenter list, and the quorum that a change leaves. -/
structure Checks where
  verify : List Consenter → Bool
  keepsQuorum : MembershipChanges → Bool

def metadataHasDuplication (seen : List Bytes) : List Consenter → Bool
  | [] => false
  | c :: cs => c.serverTlsCert ∈ seen || c.clientTlsCert ∈ seen ||
      metadataHasDuplication (c.clientTlsCert :: c.serverTlsCert :: seen) cs

variable (checks : Checks)

def verifyConfigMetadata (consenters : List Consenter) : Result Unit :=
  if consenters.isEmpty then .error (.error "empty consenter set")
  else if !checks.verify consenters then .error (.error "invalid config metadata")
  else if metadataHasDuplication [] consenters then .error (.error "duplicate consenter")
  else .ok ()

def Orderer.validateConsensusMetadata (o : Orderer) (newConsenters : List Consenter) (newChannel : Bool) :
    Result Unit := do
  verifyConfigMetadata checks newConsenters
  if newChannel then
    if newConsenters.all fun c => c.clientTlsCert ∈ o.config.map (·.clientTlsCert) then .ok ()
    else .error (.error "new channel has consenter that is not part of system consenter set")
  else do
    let oldConsenters ← createConsentersMap o.blockMetadata o.config
    let changes ← computeMembershipChanges o.blockMetadata oldConsenters newConsenters
    if checks.keepsQuorum changes then .ok () else .error (.error "configuration will result in quorum loss")

def Orderer.accept (o : Orderer) : Block → Result Unit
  | .normal | .config none | .ordererTransaction none => .ok ()
  | .config (some consenters) => o.validateConsensusMetadata checks consenters false
  | .ordererTransaction (some consenters) => o.validateConsensusMetadata checks consenters true

/-- Every block was accepted by an orderer that had written the blocks before it. -/
def Accepted (checks : Checks) (o : Orderer) : List Entry → Prop
  | [] => True
  | e :: es => o.accept checks e.block = .ok () ∧ ∀ o', o.writeBlock e = .ok o' → Accepted checks o' es

inductive Route where
  | raft
  | pulled
  -- The block is the one in a Raft snapshot, which has no metadata.
  | snapshot

inductive Event where
  | deliver (e : Entry) (route : Route)
  | restart

structure Pair where
  applied : Orderer
  other : Orderer

def Orderer.receive (e : Entry) (metadata : Option BlockMetadata) : Route → Result Orderer
  | .raft => o.writeBlock e
  | .pulled => o.commitBlock e.block metadata
  | .snapshot => o.commitBlock e.block none

def Pair.step (p : Pair) : Event → Result Pair
  | .deliver e route => do
    let applied ← p.applied.writeBlock e
    let other ← p.other.receive e applied.lastMetadata route
    .ok ⟨applied, other⟩
  | .restart => do
    let other ← p.other.handleChain
    .ok { p with other }

def Pair.run (p : Pair) (events : List Event) : Result Pair := events.foldlM Pair.step p

def newPair (genesis : List Consenter) : Pair := ⟨newOrderer genesis, newOrderer genesis⟩

def entriesOf (events : List Event) : List Entry :=
  events.filterMap fun
    | .deliver e _ => some e
    | .restart => none

inductive Content where
  | empty
  | block (number : Nat) (block : Block)
  | confChange (cc : Option ConfChange)

structure RaftEntry where
  index : Nat
  content : Content

structure Written where
  entryIndex : Nat
  block : Block
  metadata : Option BlockMetadata

structure Chain where
  orderer : Orderer
  appliedIndex : Nat
  lastBlock : Nat
  written : List Written

def newChain (lastBlock : Nat) (written : List Written) : Chain :=
  ⟨o, o.blockMetadata.raftIndex, lastBlock, written⟩

variable (c : Chain)

def Chain.writeBlock (number : Nat) (block : Block) (index : Nat) : Result Chain :=
  if c.lastBlock + 1 < number then .error (.panic s!"Got block [{number}], expect block [{c.lastBlock + 1}]")
  else if number < c.lastBlock + 1 then .ok c
  else do
    let o ← c.orderer.writeBlock ⟨index, block⟩
    .ok { c with orderer := o, lastBlock := number, written := c.written ++ [⟨index, block, o.lastMetadata⟩] }

def Chain.applied (index : Nat) : Chain := { c with appliedIndex := max c.appliedIndex index }

def Chain.applyEntry (e : RaftEntry) : Result Chain :=
  match e.content with
  | .empty | .confChange (some _) => .ok (c.applied e.index)
  | .confChange none => .ok c
  | .block number block =>
    if e.index ≤ c.appliedIndex then .ok c
    else do
      let c ← c.writeBlock number block e.index
      .ok (c.applied e.index)

def Chain.apply : List RaftEntry → Result Chain
  | [] => .ok c
  | e :: ents =>
    if c.appliedIndex + 1 < e.index then
      .error (.panic s!"first index of committed entry[{e.index}] should <= appliedIndex[{c.appliedIndex}]+1")
    else (e :: ents).foldlM Chain.applyEntry c

def Chain.restart : Result Chain := do
  let o ← c.orderer.handleChain
  .ok (newChain o c.lastBlock c.written)

inductive ChainEvent where
  | apply (ents : List RaftEntry)
  | restart

def Chain.handle : ChainEvent → Result Chain
  | .apply ents => c.apply ents
  | .restart => c.restart

end Fabric.Etcdraft.Membership
