import Fabric.Ledger.Statedb

/-! # The message store of the gossip component -/

namespace Fabric.Gossip

open Ledger

inductive InvalidationResult where
  | messageNoAction
  | messageInvalidates
  | messageInvalidated
  deriving DecidableEq

structure PeerTime where
  incNum : UInt64
  seqNum : UInt64

/-- The kinds of messages that the comparator tells apart, with what it compares. -/
inductive GossipMessage where
  | aliveMsg (pkiId : Bytes) (timestamp : PeerTime)
  | dataMsg (seqNum : UInt64)
  | stateInfo (pkiId : Bytes) (timestamp : PeerTime)
  | peerIdentity (pkiId : Bytes)
  | leadershipMsg (pkiId : Bytes) (timestamp : PeerTime)
  | other

def compareTimestamps (thisTS thatTS : PeerTime) : InvalidationResult :=
  if thisTS.incNum = thatTS.incNum then
    (if thisTS.seqNum > thatTS.seqNum then .messageInvalidates else .messageInvalidated)
  else if thisTS.incNum < thatTS.incNum then .messageInvalidated
  else .messageInvalidates

variable (thisPkiId thatPkiId : Bytes)

/-- The policy of the messages that a peer replaces by later ones. -/
def timestampPolicy (thisTS thatTS : PeerTime) : InvalidationResult :=
  if thisPkiId ≠ thatPkiId then .messageNoAction else compareTimestamps thisTS thatTS

abbrev aliveInvalidationPolicy := timestampPolicy
abbrev stateInvalidationPolicy := timestampPolicy
abbrev leaderInvalidationPolicy := timestampPolicy

def identityInvalidationPolicy : InvalidationResult :=
  if thisPkiId = thatPkiId then .messageInvalidated else .messageNoAction

def abs (a b : UInt64) : UInt64 := if a > b then a - b else b - a

variable (dataBlockStorageSize : Int64)

def dataInvalidationPolicy (thisSeqNum thatSeqNum : UInt64) : InvalidationResult :=
  if thisSeqNum = thatSeqNum then .messageInvalidated
  else if abs thisSeqNum thatSeqNum ≤ dataBlockStorageSize.toUInt64 then .messageNoAction
  else if thisSeqNum > thatSeqNum then .messageInvalidates
  else .messageInvalidated

def invalidationPolicy : GossipMessage → GossipMessage → InvalidationResult
  | .aliveMsg thisPkiId thisTS, .aliveMsg thatPkiId thatTS => aliveInvalidationPolicy thisPkiId thatPkiId thisTS thatTS
  | .dataMsg thisSeqNum, .dataMsg thatSeqNum => dataInvalidationPolicy dataBlockStorageSize thisSeqNum thatSeqNum
  | .stateInfo thisPkiId thisTS, .stateInfo thatPkiId thatTS => stateInvalidationPolicy thisPkiId thatPkiId thisTS thatTS
  | .peerIdentity thisPkiId, .peerIdentity thatPkiId => identityInvalidationPolicy thisPkiId thatPkiId
  | .leadershipMsg thisPkiId thisTS, .leadershipMsg thatPkiId thatTS =>
    leaderInvalidationPolicy thisPkiId thatPkiId thisTS thatTS
  | _, _ => .messageNoAction

structure Msg (M : Type) where
  data : M
  created : Int
  expired : Bool

structure MessageStore (M : Type) where
  messages : List (Msg M)
  expiredCount : Int

variable {M : Type}

def newMsgStore : MessageStore M := ⟨[], 0⟩

/-- The loop of `Add`: whether the message is added, and the messages left. -/
def invalidate (pol : M → M → InvalidationResult) (message : M) : List (Msg M) → Bool × List (Msg M)
  | [] => (true, [])
  | m :: messages =>
    match pol message m.data with
    | .messageInvalidated => (false, m :: messages)
    | .messageInvalidates => invalidate pol message messages
    | .messageNoAction =>
      let rest := invalidate pol message messages
      (rest.1, m :: rest.2)

variable (s : MessageStore M) (pol : M → M → InvalidationResult)

def MessageStore.add (message : M) (now : Int) : Bool × MessageStore M :=
  let out := invalidate pol message s.messages
  if !out.1 then (false, { s with messages := out.2 })
  else (true, { s with messages := out.2 ++ [⟨message, now, false⟩] })

def MessageStore.purge (shouldBePurged : M → Bool) : MessageStore M :=
  if s.messages.any (shouldBePurged ·.data) then { s with messages := s.messages.filter (!shouldBePurged ·.data) } else s

def MessageStore.size : Int := s.messages.length - s.expiredCount

def MessageStore.get : List M := (s.messages.filter (!·.expired)).map (·.data)

/-- The loop of `expireMessages`, with the change of `expiredCount`. -/
def expire (msgTTL now : Int) : List (Msg M) → List (Msg M) × Int
  | [] => ([], 0)
  | m :: messages =>
    let rest := expire msgTTL now messages
    if !m.expired then
      (if now - m.created > msgTTL then ({ m with expired := true } :: rest.1, rest.2 + 1) else (m :: rest.1, rest.2))
    else if now - m.created > (msgTTL * 2).bmod (2 ^ 64) then (rest.1, rest.2 - 1)
    else (m :: rest.1, rest.2)

def MessageStore.expireMessages (msgTTL now : Int) : MessageStore M :=
  let out := expire msgTTL now s.messages
  ⟨out.1, s.expiredCount + out.2⟩

inductive MsgStep (M : Type) where
  | add (message : M) (now : Int)
  | purge (shouldBePurged : M → Bool)
  | expireMessages (now : Int)

def MessageStore.step (msgTTL : Int) : MsgStep M → MessageStore M
  | .add message now => (s.add pol message now).2
  | .purge shouldBePurged => s.purge shouldBePurged
  | .expireMessages now => s.expireMessages msgTTL now

end Fabric.Gossip
