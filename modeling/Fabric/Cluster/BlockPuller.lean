import Mathlib

/-! # The block puller -/

namespace Fabric.Cluster

structure PullerConf (Block : Type) where
  maxPullBlockRetries : Nat
  maxTotalBufferBytes : Nat
  number : Block → UInt64
  blockSize : Block → Nat

/-- One try to connect: the last block of the chosen endpoint, if one was found, and whether a stop was signalled. -/
structure Connect where
  lastBlockSeq : Option UInt64
  stop : Bool

structure Fetch (Block : Type) where
  connects : List Connect
  seekEnvelope : Bool
  requestBlocks : Bool
  responses : List (Option Block)
  verifyBlockSequence : List Block → Bool
  stop : Bool

/-- The blocks that one call of `pullBlocks` has received, and whether they were all received and verified. -/
structure Reception (Block : Type) where
  seq : UInt64
  blocks : List Block
  accepted : Bool

structure Puller (Block : Type) where
  blockBuff : List (Nat × Block)
  latestSeq : UInt64
  connected : Bool
  receptions : List (Reception Block)

variable {Block : Type} (conf : PullerConf Block) (p : Puller Block)

def Puller.disconnect : Puller Block := { p with connected := false, latestSeq := 0 }

def Puller.close : Puller Block := { p.disconnect with blockBuff := [] }

def Puller.popBlock (seq : UInt64) : Option (Nat × Block) × Puller Block :=
  match p.blockBuff with
  | [] => (none, p)
  | block :: rest =>
    if seq ≠ conf.number block.2 then (none, { p with blockBuff := [] })
    else (some block, { p with blockBuff := rest })

def Puller.connect (p : Puller Block) (retriesLeft : Nat) : List Connect → Option (Puller Block) × Puller Block
  | [] => (none, p)
  | c :: cs =>
    match c.lastBlockSeq with
    | some latestSeq =>
      let p := { p with connected := true, latestSeq }
      if retriesLeft = 0 ∧ 0 < conf.maxPullBlockRetries then (none, p) else (some p, p)
    | none =>
      if c.stop ∨ retriesLeft = 0 ∧ 0 < conf.maxPullBlockRetries then (none, p)
      else p.connect (retriesLeft - 1) cs

def receive (latestSeq : UInt64) (totalSize : Nat) (nextExpectedSequence : UInt64) :
    List (Option Block) → List Block × Bool
  | [] => ([], decide ¬ (totalSize < conf.maxTotalBufferBytes ∧ nextExpectedSequence ≤ latestSeq))
  | response :: responses =>
    if totalSize < conf.maxTotalBufferBytes ∧ nextExpectedSequence ≤ latestSeq then
      match response with
      | none => ([], false)
      | some block =>
        if conf.number block ≠ nextExpectedSequence then ([], false)
        else
          let (blocks, received) :=
            receive latestSeq (totalSize + conf.blockSize block) (nextExpectedSequence + 1) responses
          (block :: blocks, received)
    else ([], true)

/-- The buffer is closed after an error; a block that were still there would be returned. -/
def Puller.failed : Option (Nat × Block) × Puller Block := (p.close.blockBuff.head?, p.close)

def Puller.pullBlocks (seq : UInt64) (fetch : Fetch Block) : Option (Nat × Block) × Puller Block :=
  let (blocks, received) := receive conf p.latestSeq 0 seq fetch.responses
  let accepted := received && fetch.verifyBlockSequence blocks
  let p : Puller Block := { p with
    blockBuff := blocks.map (p.receptions.length, ·)
    receptions := p.receptions ++ [⟨seq, blocks, accepted⟩] }
  if !received then p.failed
  else if !accepted then (none, p.close)
  else p.popBlock conf seq

def Puller.tryFetchBlock (seq : UInt64) (fetch : Fetch Block) : Option (Nat × Block) × Puller Block :=
  match p.popBlock conf seq with
  | (some block, p) => (some block, p)
  | (none, p) =>
    if p.connected then
      if fetch.seekEnvelope then p.pullBlocks conf seq fetch else p.failed
    else match p.connect conf conf.maxPullBlockRetries fetch.connects with
      | (none, p) => (none, p)
      | (some p, _) => if fetch.seekEnvelope ∧ fetch.requestBlocks then p.pullBlocks conf seq fetch else p.failed

def Puller.pullBlock (p : Puller Block) (seq : UInt64) (retriesLeft : Nat) :
    List (Fetch Block) → Option (Nat × Block) × Puller Block
  | [] => (none, p)
  | fetch :: fetches =>
    match p.tryFetchBlock conf seq fetch with
    | (some block, p) => (some block, p)
    | (none, p) =>
      if retriesLeft - 1 = 0 ∧ 0 < conf.maxPullBlockRetries ∨ fetch.stop then (none, p)
      else p.pullBlock seq (retriesLeft - 1) fetches

inductive PullerCall (Block : Type) where
  | pullBlock (seq : UInt64) (fetches : List (Fetch Block))
  | close
  | updateEndpoints

def newPuller : Puller Block := ⟨[], 0, false, []⟩

/-- The blocks that the calls return, with the sequence number asked for and the number of the reception. -/
def Puller.calls (p : Puller Block) : List (PullerCall Block) → List (UInt64 × Nat × Block) × Puller Block
  | [] => ([], p)
  | .pullBlock seq fetches :: calls =>
    let (block, p) := p.pullBlock conf seq conf.maxPullBlockRetries fetches
    let (returned, p) := p.calls calls
    ((block.map (seq, ·)).toList ++ returned, p)
  | .close :: calls => p.close.calls calls
  | .updateEndpoints :: calls => p.disconnect.calls calls

end Fabric.Cluster
