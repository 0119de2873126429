import Fabric.Lib.Transition
import Fabric.Ledger.Statedb

/-! # Ordering under the channel configuration -/

namespace Fabric.Etcdraft.Ordering

open Lib Ledger

inductive HeaderType where
  | config
  | configUpdate
  | ordererTransaction
  | other (type : Nat)
  deriving DecidableEq

structure Envelope where
  header : Option HeaderType
  payload : Bytes
  signature : Bytes
  deriving DecidableEq

structure BatchSize where
  maxMessageCount : Nat
  preferredMaxBytes : Nat

/-- What the orderers read from a channel config, and the checks that depend on it. -/
structure Support (Config : Type) where
  consensusTypeMigration : Config → Bool
  stateNormal : Config → Bool
  batchSize : Config → BatchSize
  filters : Config → Nat → Envelope → Bool
  proposeConfigUpdate : Config → Envelope → Option Bytes
  sign : Bytes → Bytes
  maintenanceFilter : Config → Envelope → Bool
  lastUpdate : Bytes → Option Envelope
  createBundle : Bytes → Config
  checkForEvictionNCertRotation : Config → Envelope → Bool

variable {Config : Type} (p : Support Config)

/-- The configs in force while a normal message is processed, as each of them is read. -/
structure NormalReads (α : Type) where
  state : α
  sequence : α
  filters : α

def processNormalMsg (reads : NormalReads Config) (time : Nat) (env : Envelope) : Result Unit :=
  if p.consensusTypeMigration reads.state && !p.stateNormal reads.state then
    .error (.error "normal transactions are rejected: maintenance mode")
  else if p.filters reads.filters time env then .ok ()
  else .error (.error "message did not pass the filters")

structure UpdateReads (α : Type) where
  sequence : α
  filters : α
  update : α
  finalFilters : α
  maintenance : α

def processConfigUpdateMsg (reads : UpdateReads Config) (time finalTime : Nat) (env : Envelope) : Result Envelope :=
  if !p.filters reads.filters time env then
    .error (.error "config update for existing channel did not pass initial checks")
  else match p.proposeConfigUpdate reads.update env with
    | none => .error (.error "error applying config update to existing channel")
    | some configEnvelope =>
      let config : Envelope := ⟨some .config, configEnvelope, p.sign configEnvelope⟩
      if !p.filters reads.finalFilters finalTime config then
        .error (.error "config update for existing channel did not pass final checks")
      else if !p.maintenanceFilter reads.maintenance config then
        .error (.error "config update for existing channel did not pass maintenance checks")
      else .ok config

def processConfigMsg (reads : UpdateReads Config) (time finalTime : Nat) (env : Envelope) : Result Envelope :=
  if env.header ≠ some .config then .error (.error "invalid type")
  else match p.lastUpdate env.payload with
    | none => .error (.error "error unmarshalling message")
    | some update => processConfigUpdateMsg p reads time finalTime update

-- The run loop of the chain is the only one to change the config, so its own reads agree.
def NormalReads.all {α : Type} (a : α) : NormalReads α := ⟨a, a, a⟩

def UpdateReads.all {α : Type} (a : α) : UpdateReads α := ⟨a, a, a, a, a⟩

structure BlockCutter where
  pendingBatch : List Envelope
  pendingBatchSizeBytes : Nat

def messageSizeBytes (env : Envelope) : Nat := (env.payload.length + env.signature.length) % 2 ^ 32

variable (r : BlockCutter)

def BlockCutter.cut : List Envelope × BlockCutter := (r.pendingBatch, ⟨[], 0⟩)

def BlockCutter.enqueue (maxMessageCount : Nat) (msg : Envelope) : List (List Envelope) × Bool × BlockCutter :=
  let r : BlockCutter := ⟨r.pendingBatch ++ [msg], (r.pendingBatchSizeBytes + messageSizeBytes msg) % 2 ^ 32⟩
  if maxMessageCount ≤ r.pendingBatch.length % 2 ^ 32 then
    let (batch, r) := r.cut
    ([batch], false, r)
  else ([], true, r)

def BlockCutter.ordered (batchSize : BatchSize) (msg : Envelope) : List (List Envelope) × Bool × BlockCutter :=
  if batchSize.preferredMaxBytes < messageSizeBytes msg then
    if r.pendingBatch.isEmpty then ([[msg]], false, r)
    else
      let (batch, r) := r.cut
      ([batch, [msg]], false, r)
  else if batchSize.preferredMaxBytes < (r.pendingBatchSizeBytes + messageSizeBytes msg) % 2 ^ 32 then
    let (batch, r) := r.cut
    let (batches, pending, r) := r.enqueue batchSize.maxMessageCount msg
    (batch :: batches, pending, r)
  else r.enqueue batchSize.maxMessageCount msg

structure SubmitRequest where
  lastValidationSeq : Nat
  payload : Envelope
  deriving DecidableEq

def isConfig (env : Envelope) : Result Bool :=
  match env.header with
  | none => .error (.error "failed to extract channel header from envelope")
  | some type => .ok (type = .config ∨ type = .ordererTransaction)

def isConfigBlock : List Envelope → Bool
  | [env] => env.header = some .config || env.header = some .ordererTransaction
  | _ => false

structure State (Config : Type) where
  -- The configs of the channel up to the last config block that is proposed, by sequence.
  history : List Config
  requests : List SubmitRequest
  sequence : Nat
  cutter : BlockCutter
  ticking : Bool
  submitC : Bool
  configInflight : Bool
  confChangeInProgress : Bool
  blockInflight : Nat
  blocks : List (List Envelope)
  written : Nat
  accepted : List Envelope

variable (s : State Config)

def State.propose (batch : List Envelope) : State Config :=
  { s with
    blocks := s.blocks ++ [batch]
    configInflight := s.configInflight || isConfigBlock batch
    blockInflight := s.blockInflight + 1
    history := s.history ++ match batch with
      | [env] => if isConfigBlock batch then [p.createBundle env.payload] else []
      | _ => [] }

structure Ordered where
  batches : List (List Envelope)
  pending : Bool
  cutter : BlockCutter
  taken : Option Envelope

def revalidateConfig (sequence : Nat) (config : Config) (msg : SubmitRequest) (time finalTime : Nat) : Result Envelope :=
  if msg.lastValidationSeq < sequence then processConfigMsg p (.all config) time finalTime msg.payload else .ok msg.payload

def revalidateNormal (sequence : Nat) (config : Config) (msg : SubmitRequest) (time : Nat) : Result Unit :=
  if msg.lastValidationSeq < sequence then processNormalMsg p (.all config) time msg.payload else .ok ()

variable (config : Config)

def orderedConfig (msg : SubmitRequest) (time finalTime : Nat) : Result Ordered := do
  let env ← revalidateConfig p s.sequence config msg time finalTime
  -- A leader that the config would evict passes the message on.
  if p.checkForEvictionNCertRotation config env then .ok ⟨[], false, s.cutter, none⟩
  else
    let (batch, cutter) := s.cutter.cut
    .ok ⟨(if batch.isEmpty then [] else [batch]) ++ [[env]], false, cutter, some env⟩

def orderedNormal (msg : SubmitRequest) (time : Nat) : Result Ordered := do
  revalidateNormal p s.sequence config msg time
  let (batches, pending, cutter) := s.cutter.ordered (p.batchSize config) msg.payload
  .ok ⟨batches, pending, cutter, some msg.payload⟩

def ordered (msg : SubmitRequest) (time finalTime : Nat) : Result Ordered := do
  if ← isConfig msg.payload then orderedConfig p s config msg time finalTime else orderedNormal p s config msg time

variable (maxInflightBlocks : Nat)

def State.submit (out : Ordered) : State Config :=
  if out.pending = false ∧ out.batches = [] then s
  else
    let s := { s with ticking := out.pending, cutter := out.cutter, accepted := s.accepted ++ out.taken.toList }
    let s := out.batches.foldl (State.propose p) s
    if s.configInflight ∨ maxInflightBlocks ≤ s.blockInflight then { s with submitC := false } else s

def State.resume : State Config :=
  if s.configInflight then { s with submitC := false }
  else if s.blockInflight < maxInflightBlocks then { s with submitC := true }
  else s

def State.writeBlock (batch : List Envelope) (confChange : Bool) : State Config :=
  let s := { s with written := s.written + 1, blockInflight := s.blockInflight - 1 }
  if isConfigBlock batch then
    { s with
      sequence := s.sequence + 1
      configInflight := confChange
      confChangeInProgress := s.confChangeInProgress || confChange }
  else s

inductive Step where
  -- An orderer processes an envelope while the configs with these sequences are in force there.
  | processNormal (reads : NormalReads Nat) (time : Nat) (env : Envelope)
  | processConfigUpdate (reads : UpdateReads Nat) (time finalTime : Nat) (env : Envelope)
  | submit (msg : SubmitRequest) (time finalTime : Nat)
  | timer
  | write (confChange : Bool)
  | applyConfChange
  | apply

def NormalReads.mapM (reads : NormalReads Nat) (history : List Config) : Option (NormalReads Config) := do
  .some ⟨← history[reads.state]?, ← history[reads.sequence]?, ← history[reads.filters]?⟩

def UpdateReads.mapM (reads : UpdateReads Nat) (history : List Config) : Option (UpdateReads Config) := do
  .some ⟨← history[reads.sequence]?, ← history[reads.filters]?, ← history[reads.update]?, ← history[reads.finalFilters]?,
    ← history[reads.maintenance]?⟩

def NormalReads.ordered (reads : NormalReads Nat) : Prop := reads.state ≤ reads.sequence ∧ reads.sequence ≤ reads.filters

instance (reads : NormalReads Nat) : Decidable reads.ordered := inferInstanceAs (Decidable (_ ∧ _))

def UpdateReads.ordered (reads : UpdateReads Nat) : Prop :=
  reads.sequence ≤ reads.filters ∧ reads.filters ≤ reads.update ∧ reads.update ≤ reads.finalFilters ∧
    reads.finalFilters ≤ reads.maintenance

instance (reads : UpdateReads Nat) : Decidable reads.ordered := inferInstanceAs (Decidable (_ ∧ _ ∧ _ ∧ _))

inductive Classification where
  | normalMsg
  | configUpdateMsg
  | configMsg
  deriving DecidableEq

def classifyMsg : HeaderType → Classification
  | .configUpdate => .configUpdateMsg
  | .ordererTransaction | .config => .configMsg
  | .other _ => .normalMsg

def State.step (s : State Config) : Step → Option (State Config)
  | .processNormal reads time env =>
    if reads.ordered ∧ env.header.map classifyMsg = some .normalMsg then do
      let configs ← reads.mapM s.history
      let _ ← (processNormalMsg p configs time env).toOption
      some { s with requests := s.requests ++ [⟨reads.sequence, env⟩] }
    else none
  | .processConfigUpdate reads time finalTime env =>
    if reads.ordered ∧ env.header.map classifyMsg = some .configUpdateMsg then do
      let configs ← reads.mapM s.history
      let config ← (processConfigUpdateMsg p configs time finalTime env).toOption
      some { s with requests := s.requests ++ [⟨reads.sequence, config⟩] }
    else none
  | .submit msg time finalTime =>
    if s.submitC ∧ (msg ∈ s.requests ∨ msg.lastValidationSeq < s.sequence) then do
      let config ← s.history[s.sequence]?
      let out ← (ordered p s config msg time finalTime).toOption
      some (s.submit p maxInflightBlocks out)
    else none
  | .timer =>
    if s.ticking then
      let (batch, cutter) := s.cutter.cut
      let s := { s with ticking := false, cutter }
      some (if batch.isEmpty then s else s.propose p batch)
    else none
  | .write confChange => do
    let batch ← s.blocks[s.written]?
    some ((s.writeBlock batch confChange).resume maxInflightBlocks)
  | .applyConfChange =>
    if s.confChangeInProgress then
      some ({ s with confChangeInProgress := false, configInflight := false }.resume maxInflightBlocks)
    else none
  | .apply => some (s.resume maxInflightBlocks)

def newLeader (past : List Config) (current : Config) : State Config where
  history := past ++ [current]
  requests := []
  sequence := past.length
  cutter := ⟨[], 0⟩
  ticking := false
  submitC := true
  configInflight := false
  confChangeInProgress := false
  blockInflight := 0
  blocks := []
  written := 0
  accepted := []

end Fabric.Etcdraft.Ordering
