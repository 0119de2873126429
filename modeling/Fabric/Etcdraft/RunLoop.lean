import Fabric.Lib.Transition

/-! # The run loop over changes of the leadership -/

namespace Fabric.Etcdraft.RunLoop

inductive Block where
  | normal
  /-- Whether writing the config block starts a conf change. -/
  | config (confChange : Bool)
  deriving DecidableEq

inductive Entry where
  /-- The next of the blocks that the node created in this leadership. -/
  | own
  | block (b : Block)
  /-- The conf change in progress, if there is one. -/
  | confChange
  | other
  deriving DecidableEq

structure Loop where
  lead : Bool
  submitC : Bool
  ticking : Bool
  configInflight : Bool
  confChangeInProgress : Bool
  justElected : Bool
  blockInflight : Nat
  /-- How many blocks are in the channel of the proposer. -/
  propC : Nat
  panicked : Bool
  -- Not in the source: the blocks created in this leadership and not written.
  created : List Block
  deriving DecidableEq

def newLoop : Loop := ⟨false, true, false, false, false, false, 0, 0, false, []⟩

variable (maxInflightBlocks : Nat) (n : Loop)

def Loop.propose (b : Block) : Loop :=
  if maxInflightBlocks ≤ n.propC then { n with panicked := true }
  else
    { n with
      propC := n.propC + 1, blockInflight := n.blockInflight + 1, created := n.created ++ [b]
      configInflight := n.configInflight || b ≠ .normal }

def Loop.submit (batches : List Block) (pending : Bool) : Loop :=
  if n.lead = false ∨ pending = false ∧ batches = [] then n
  else
    let n := batches.foldl (Loop.propose maxInflightBlocks) { n with ticking := pending }
    if n.configInflight ∨ maxInflightBlocks ≤ n.blockInflight then { n with submitC := false } else n

def Loop.becomeLeader (unfinished : Bool) : Loop :=
  let inFlight := n.confChangeInProgress || unfinished
  { n with
    lead := true, justElected := true, submitC := false, blockInflight := 0, propC := 0, created := []
    confChangeInProgress := inFlight, configInflight := n.configInflight || inFlight }

def Loop.becomeFollower : Loop :=
  { n with lead := false, blockInflight := 0, ticking := false, submitC := true, propC := 0, created := [] }

def Loop.writeBlock (b : Block) : Loop :=
  let n := { n with blockInflight := n.blockInflight - 1 }
  match b with
  | .normal => n
  | .config confChange =>
    { n with configInflight := confChange, confChangeInProgress := n.confChangeInProgress || confChange }

def Loop.applyEntry : Entry → Loop
  | .own =>
    match n.created with
    | [] => n
    | b :: rest => if n.propC ≤ rest.length then Loop.writeBlock { n with created := rest } b else n
  | .block b => n.writeBlock b
  | .confChange => if n.confChangeInProgress then { n with confChangeInProgress := false, configInflight := false } else n
  | .other => n

structure Apply where
  /-- Whether the node leads according to the new soft state. -/
  soft : Option Bool
  /-- Whether the last block has a conf change that the voters do not show. -/
  unfinished : Bool
  entries : List Entry
  msgInflight : Bool
  deriving DecidableEq

def Loop.observe (app : Apply) : Loop :=
  match app.soft, n.lead with
  | some true, false => n.becomeLeader app.unfinished
  | some false, true => n.becomeFollower
  | _, _ => n

def Loop.resume (msgInflight : Bool) : Loop :=
  if n.justElected then
    if msgInflight ∨ n.configInflight then n else { n with submitC := true, justElected := false }
  else if n.configInflight then { n with submitC := false }
  else if n.blockInflight < maxInflightBlocks then { n with submitC := true }
  else n

inductive Event where
  -- What `ordered` returns for a request: at most two batches.
  | submit (batches : List Block) (pending : Bool)
  | timer (batch : Bool)
  /-- The proposer takes a block from its channel. -/
  | propose
  | apply (app : Apply)
  | restart

def Loop.step : Event → Option Loop
  | .submit batches pending =>
    if n.panicked = false ∧ n.submitC ∧ batches.length ≤ 2 then some (n.submit maxInflightBlocks batches pending) else none
  | .timer batch =>
    if n.panicked = false ∧ n.ticking then
      let n := { n with ticking := false }
      some (if batch then n.propose maxInflightBlocks .normal else n)
    else none
  | .propose => some { n with propC := n.propC - 1 }
  | .apply app =>
    if n.panicked then none
    else some ((app.entries.foldl Loop.applyEntry (n.observe app)).resume maxInflightBlocks app.msgInflight)
  | .restart => some newLoop

end Fabric.Etcdraft.RunLoop
