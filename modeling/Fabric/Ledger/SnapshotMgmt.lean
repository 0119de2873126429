import Fabric.Lib.Result

/-! # Management of snapshot requests -/

namespace Fabric.Ledger.SnapshotMgmt

open Lib

def defaultSmallestBlockNumber : Nat := 2 ^ 64 - 1

def smallestRequest (requests : Finset Nat) : Nat := requests.min.untopD defaultSmallestBlockNumber

structure SnapshotRequestBookkeeper where
  requests : Finset Nat
  smallestRequestBlockNum : Nat

def newSnapshotRequestBookkeeper (requests : Finset Nat) : SnapshotRequestBookkeeper := ⟨requests, smallestRequest requests⟩

namespace SnapshotRequestBookkeeper

variable (k : SnapshotRequestBookkeeper)

def add (blockNumber : Nat) : Result SnapshotRequestBookkeeper :=
  if blockNumber ∈ k.requests then .error (.error s!"duplicate snapshot request for block number {blockNumber}")
  else .ok ⟨insert blockNumber k.requests,
    if blockNumber < k.smallestRequestBlockNum then blockNumber else k.smallestRequestBlockNum⟩

def delete (blockNumber : Nat) : Result SnapshotRequestBookkeeper :=
  if blockNumber ∉ k.requests then .error (.error s!"no snapshot request exists for block number {blockNumber}")
  else .ok ⟨k.requests.erase blockNumber,
    if k.smallestRequestBlockNum ≠ blockNumber then k.smallestRequestBlockNum
    else smallestRequest (k.requests.erase blockNumber)⟩

end SnapshotRequestBookkeeper

inductive NextBlockCommitStatus where
  | idle
  | blocked
  | inProcess
  deriving DecidableEq

inductive Event where
  | commitStart (blockNumber : Nat)
  | commitDone (blockNumber : Nat)
  | snapshotDone (blockNumber : Nat)
  | requestAdd (blockNumber : Nat)
  | requestCancel (blockNumber : Nat)

structure EventLoop where
  committerStatus : NextBlockCommitStatus
  snapshotInProgress : Bool
  lastCommittedBlockNumber : Nat
  snapshotRequestBookkeeper : SnapshotRequestBookkeeper

inductive Message where
  | commitProceed
  | requestResponse (r : Result Unit)

/-- A running `generateSnapshot` and the number in the event at its end.  Started after a commit, it looks at the
last committed block then. -/
structure Generation where
  requestedBlockNum : Option Nat
  deriving DecidableEq

inductive Entry where
  | accepted (blockNumber : Nat)
  | cancelled (blockNumber : Nat)
  | started (blockNumber : Nat)
  deriving DecidableEq

structure Processed where
  loop : EventLoop
  message : Option Message
  generation : Option Generation
  entries : List Entry

namespace EventLoop

variable (l : EventLoop)

def respond (r : Result Unit) : Processed := ⟨l, some (.requestResponse r), none, []⟩

def processCommitStart : Processed :=
  if l.snapshotInProgress then ⟨{ l with committerStatus := .blocked }, none, none, []⟩
  else ⟨{ l with committerStatus := .inProcess }, some .commitProceed, none, []⟩

variable (blockNumber : Nat)

def processCommitDone : Processed :=
  let l := { l with lastCommittedBlockNumber := blockNumber, committerStatus := .idle }
  if l.lastCommittedBlockNumber ≠ l.snapshotRequestBookkeeper.smallestRequestBlockNum then ⟨l, none, none, []⟩
  else ⟨{ l with snapshotInProgress := true }, none, some ⟨none⟩, [.started blockNumber]⟩

def processSnapshotDone : Processed :=
  let l := match l.snapshotRequestBookkeeper.delete blockNumber with
    | .ok bookkeeper => { l with snapshotRequestBookkeeper := bookkeeper }
    | .error _ => l
  if l.committerStatus = .blocked then
    ⟨{ l with committerStatus := .inProcess, snapshotInProgress := false }, some .commitProceed, none, []⟩
  else ⟨{ l with snapshotInProgress := false }, none, none, []⟩

def leastAcceptableBlockNum : Nat :=
  if l.committerStatus ≠ .idle then l.lastCommittedBlockNumber + 1 else l.lastCommittedBlockNumber

def processRequestAdd (snapshots : Finset Nat) (blockNumber : Nat) : Processed :=
  let requestedBlockNum := if blockNumber = 0 then l.leastAcceptableBlockNum else blockNumber
  if requestedBlockNum < l.leastAcceptableBlockNum then
    l.respond (.error (.error (s!"requested snapshot for block number {requestedBlockNum} cannot be less than the " ++
      s!"last committed block number {l.leastAcceptableBlockNum}")))
  else if requestedBlockNum = l.lastCommittedBlockNumber ∧ requestedBlockNum ∈ snapshots then
    l.respond (.error (.error s!"snapshot already generated for block number {requestedBlockNum}"))
  else match l.snapshotRequestBookkeeper.add requestedBlockNum with
    | .error failure => l.respond (.error failure)
    | .ok bookkeeper =>
      let l := { l with snapshotRequestBookkeeper := bookkeeper }
      if l.committerStatus = .idle ∧ requestedBlockNum = l.lastCommittedBlockNumber then
        ⟨{ l with snapshotInProgress := true }, some (.requestResponse (.ok ())), some ⟨some requestedBlockNum⟩,
          [.accepted requestedBlockNum, .started requestedBlockNum]⟩
      else ⟨l, some (.requestResponse (.ok ())), none, [.accepted requestedBlockNum]⟩

def processRequestCancel : Processed :=
  if l.snapshotInProgress ∧ blockNumber = l.lastCommittedBlockNumber then
    l.respond (.error (.error "cannot cancel the snapshot request because it is under processing"))
  else match l.snapshotRequestBookkeeper.delete blockNumber with
    | .error failure => l.respond (.error failure)
    | .ok bookkeeper =>
      ⟨{ l with snapshotRequestBookkeeper := bookkeeper }, some (.requestResponse (.ok ())), none, [.cancelled blockNumber]⟩

def processEvent (snapshots : Finset Nat) : Event → Processed
  | .commitStart _ => l.processCommitStart
  | .commitDone blockNumber => l.processCommitDone blockNumber
  | .snapshotDone blockNumber => l.processSnapshotDone blockNumber
  | .requestAdd blockNumber => l.processRequestAdd snapshots blockNumber
  | .requestCancel blockNumber => l.processRequestCancel blockNumber

end EventLoop

-- Where the one committer is in `CommitLegacy`.
inductive Committer where
  | idle
  | sendingStart (blockNumber : Nat)
  | waiting (blockNumber : Nat)
  | committing (blockNumber : Nat)
  | sendingDone (blockNumber : Nat)
  deriving DecidableEq

inductive Request where
  | submit (blockNumber : UInt64)
  | cancel (blockNumber : UInt64)
  deriving DecidableEq

def Request.event : Request → Event
  | .submit blockNumber => .requestAdd blockNumber.toNat
  | .cancel blockNumber => .requestCancel blockNumber.toNat

inductive CallState where
  | sending
  | waiting
  | returned (r : Result Unit)
  deriving DecidableEq

structure Call where
  request : Request
  state : CallState
  deriving DecidableEq

inductive Sender where
  | committer
  | generation (blockNumber : Nat)
  | call (i : Nat)
  deriving DecidableEq

/-- The ledger and the goroutines.  Goroutines that are blocked on sending an event are received from in order. -/
structure System where
  committed : Nat
  snapshots : Finset Nat
  loop : EventLoop
  sending : Option Message
  senders : List Sender
  committer : Committer
  generations : List Generation
  calls : List Call
  history : List (Entry × Nat)
  answers : List (Nat × Result Unit)

inductive Label where
  | commitLegacy (blockNumber : Nat)
  | call (request : Request)
  | complete (i : Nat) (placed : Bool)
  | commitBlock (success : Bool)
  | receive
  | proceed
  | respond (i : Nat)
  | crash (stored : Bool)
  deriving DecidableEq

namespace System

variable (s : System)

def startCommit (blockNumber : Nat) : Option System :=
  if s.committer = .idle then
    some { s with committer := .sendingStart blockNumber, senders := s.senders ++ [.committer] }
  else none

def startCall (request : Request) : System :=
  { s with calls := s.calls ++ [⟨request, .sending⟩], senders := s.senders ++ [.call s.calls.length] }

def completeGeneration (i : Nat) (placed : Bool) : Option System := do
  let generation ← s.generations[i]?
  some { s with
    generations := s.generations.eraseIdx i
    snapshots := if placed then insert s.committed s.snapshots else s.snapshots
    senders := s.senders ++ [.generation (generation.requestedBlockNum.getD s.loop.lastCommittedBlockNumber)] }

def commitBlock (success : Bool) : Option System :=
  match s.committer with
  | .committing blockNumber =>
    if ¬ success then some { s with committer := .idle }
    else if blockNumber = s.committed + 1 then
      some { s with committed := blockNumber, committer := .sendingDone blockNumber, senders := s.senders ++ [.committer] }
    else none
  | _ => none

def receiveFrom : Sender → Option (Event × System)
  | .committer =>
    match s.committer with
    | .sendingStart blockNumber => some (.commitStart blockNumber, { s with committer := .waiting blockNumber })
    | .sendingDone blockNumber => some (.commitDone blockNumber, { s with committer := .idle })
    | _ => none
  | .generation blockNumber => some (.snapshotDone blockNumber, s)
  | .call i =>
    match s.calls[i]? with
    | some ⟨request, .sending⟩ => some (request.event, { s with calls := s.calls.set i ⟨request, .waiting⟩ })
    | _ => none

def answer : Sender → Option Message → List (Nat × Result Unit)
  | .call i, some (.requestResponse r) => [(i, r)]
  | _, _ => []

def receive : Option System := do
  if s.sending.isSome then none
  else match s.senders with
    | [] => none
    | sender :: senders =>
      let (event, s) ← s.receiveFrom sender
      let processed := s.loop.processEvent s.snapshots event
      some { s with
        senders := senders
        loop := processed.loop
        sending := processed.message
        generations := s.generations ++ processed.generation.toList
        history := s.history ++ processed.entries.map (·, s.committed)
        answers := s.answers ++ answer sender processed.message }

def proceed : Option System :=
  match s.sending, s.committer with
  | some .commitProceed, .waiting blockNumber => some { s with sending := none, committer := .committing blockNumber }
  | _, _ => none

def respond (i : Nat) : Option System :=
  match s.sending, s.calls[i]? with
  | some (.requestResponse r), some ⟨request, .waiting⟩ =>
    some { s with sending := none, calls := s.calls.set i ⟨request, .returned r⟩ }
  | _, _ => none

def initSnapshotMgr (committed : Nat) (snapshots requests : Finset Nat) (history : List (Entry × Nat)) :
    System :=
  let bookkeeper := newSnapshotRequestBookkeeper requests
  let loop : EventLoop := ⟨.idle, false, committed, bookkeeper⟩
  let s : System := ⟨committed, snapshots, loop, none, [], .idle, [], [], history, []⟩
  if committed = bookkeeper.smallestRequestBlockNum ∧ committed ∉ snapshots then
    let processed := loop.processEvent snapshots (.commitDone committed)
    { s with
      loop := processed.loop
      generations := processed.generation.toList
      history := s.history ++ processed.entries.map (·, committed) }
  else s

-- A block that was being committed may be in the block store, and then the ledger recovers it.
def crash (stored : Bool) : System :=
  let committed := match s.committer with
    | .committing blockNumber => if stored ∧ blockNumber = s.committed + 1 then blockNumber else s.committed
    | _ => s.committed
  initSnapshotMgr committed s.snapshots s.loop.snapshotRequestBookkeeper.requests s.history

def step : Label → Option System
  | .commitLegacy blockNumber => s.startCommit blockNumber
  | .call request => some (s.startCall request)
  | .complete i placed => s.completeGeneration i placed
  | .commitBlock success => s.commitBlock success
  | .receive => s.receive
  | .proceed => s.proceed
  | .respond i => s.respond i
  | .crash stored => some (s.crash stored)

end System

end Fabric.Ledger.SnapshotMgmt
