import Fabric.Lib.Extract
import Fabric.Etcdraft.Ordering

/-! # Envelopes are ordered under the configuration that accepted them -/

namespace Fabric.Proof.Etcdraft.Ordering

open Lib Fabric.Ledger Fabric.Etcdraft.Ordering List Option

variable {Config : Type} {p : Support Config} {s s' : State Config} {env : Envelope} {batch : List Envelope}
  {history past : List Config} {cur : Config} {blocks : List (List Envelope)} {maxInflightBlocks : Nat}
  {reads : NormalReads Nat} {update : Envelope} {more batches : List (List Envelope)} {k : Nat}
  {configs : NormalReads Config}

def AcceptedNormal (p : Support Config) (config : Config) (env : Envelope) : Prop :=
  ∃ time, processNormalMsg p (.all config) time env = .ok ()

def AcceptedConfig (p : Support Config) (config : Config) (env : Envelope) : Prop :=
  ∃ time finalTime update, processConfigUpdateMsg p (.all config) time finalTime update = .ok env

/-- The message processor accepts the envelope, or an update that leads to it, under one config. -/
def Accepted (p : Support Config) (config : Config) (env : Envelope) : Prop :=
  match isConfig env with
  | .ok true => AcceptedConfig p config env
  | .ok false => AcceptedNormal p config env
  | .error _ => False

theorem accepted_normal {config : Config} (normal : isConfig env = .ok false) : Accepted p config env ↔ AcceptedNormal p config env := by
  rw [Accepted, normal]

theorem accepted_config {config : Config} (isConfig' : isConfig env = .ok true) : Accepted p config env ↔ AcceptedConfig p config env := by
  rw [Accepted, isConfig']

theorem isConfig_of_update {reads : UpdateReads Config} {time finalTime : Nat}
    (processed : processConfigUpdateMsg p reads time finalTime update = .ok env) : isConfig env = .ok true := by
  unfold processConfigUpdateMsg at processed
  split at processed
  · cases processed
  · split at processed
    · cases processed
    · dsimp only at processed
      split at processed
      · cases processed
      · split at processed
        · cases processed
        · cases processed
          rfl

theorem isConfigBlock_singleton : isConfigBlock [env] = true ↔ isConfig env = .ok true := by
  unfold isConfigBlock isConfig
  cases header : env.header <;> simp [header]

theorem isConfigBlock_normal (normal : ∀ env ∈ batch, isConfig env = .ok false) : isConfigBlock batch = false := by
  match batch with
  | [] | _ :: _ :: _ => rfl
  | [env] =>
    rw [Bool.eq_false_iff]
    intro config
    rw [isConfigBlock_singleton, normal env (by simp)] at config
    cases config

def newConfigs (p : Support Config) : List Envelope → List Config
  | [env] => if isConfigBlock [env] then [p.createBundle env.payload] else []
  | _ => []

theorem newConfigs_length : (newConfigs p batch).length = (isConfigBlock batch).toNat := by
  match batch with
  | [] | _ :: _ :: _ => rfl
  | [env] =>
    cases config : isConfigBlock [env] <;> simp [newConfigs, config]

theorem newConfigs_normal (normal : isConfigBlock batch = false) : newConfigs p batch = [] := by
  apply eq_nil_of_length_eq_zero
  rw [newConfigs_length, normal]
  rfl

theorem flatMap_newConfigs_length (blocks : List (List Envelope)) : (blocks.flatMap (newConfigs p)).length = blocks.countP isConfigBlock := by
  induction blocks with
  | nil => rfl
  | cons batch blocks ih =>
    rw [flatMap_cons, length_append, ih, newConfigs_length, countP_cons]
    cases isConfigBlock batch <;> simp [Nat.add_comm]

/-- The config of the last config block before a position, or that at the start. -/
def configAt (p : Support Config) (cur : Config) (blocks : List (List Envelope)) (k : Nat) : Config :=
  ((blocks.take k).flatMap (newConfigs p)).getLast?.getD cur

theorem configAt_append (inside : k ≤ blocks.length) : configAt p cur (blocks ++ more) k = configAt p cur blocks k := by
  rw [configAt, take_append_of_le_length inside, configAt]

structure Placed (p : Support Config) (past : List Config) (cur : Config) (history : List Config)
    (blocks : List (List Envelope)) : Prop where
  configs : history = past ++ cur :: blocks.flatMap (newConfigs p)
  accepted : ∀ (k : Nat) (batch : List Envelope), blocks[k]? = some batch → ∀ env ∈ batch,
    Accepted p (configAt p cur blocks k) env
  alone : ∀ batch ∈ blocks, ∀ env ∈ batch, isConfig env = .ok true → batch = [env]

theorem Placed.length (placed : Placed p past cur history blocks) : history.length = past.length + blocks.countP isConfigBlock + 1 := by
  rw [placed.configs, length_append, length_cons, flatMap_newConfigs_length]
  omega

theorem Placed.latest (placed : Placed p past cur history blocks) : history.getLast? = some (configAt p cur blocks blocks.length) := by
  rw [placed.configs, configAt, take_length, getLast?_append, getLast?_cons]
  rfl

structure Ready (p : Support Config) (history : List Config) (env : Envelope) : Prop where
  normal : isConfig env = .ok false
  accepted : ∃ config, history.getLast? = some config ∧ Accepted p config env

theorem Placed.concat (placed : Placed p past cur history blocks)
    (accepted : ∀ env ∈ batch, ∃ config, history.getLast? = some config ∧ Accepted p config env)
    (alone : ∀ env ∈ batch, isConfig env = .ok true → batch = [env]) :
    Placed p past cur (history ++ newConfigs p batch) (blocks ++ [batch]) where
  configs := by
    rw [placed.configs, flatMap_append]
    simp
  accepted := by
    intro k found' found env member
    by_cases old : k < blocks.length
    · rw [getElem?_append_left old] at found
      rw [configAt_append old.le]
      exact placed.accepted k found' found env member
    · obtain rfl : k = blocks.length := by
        have inside := (List.getElem?_eq_some_iff.mp found).1
        rw [length_append, length_singleton] at inside
        omega
      rw [getElem?_append_right (Nat.le_refl _), Nat.sub_self] at found
      cases found
      obtain ⟨config, last, accepted'⟩ := accepted env member
      rw [placed.latest] at last
      cases last
      rw [configAt_append (Nat.le_refl _)]
      exact accepted'
  alone := by
    intro found member
    rw [mem_append, mem_singleton] at member
    cases member with
    | inl old => exact placed.alone found old
    | inr new =>
      subst new
      exact alone

theorem enqueue_flatten (r : BlockCutter) (maxMessageCount : Nat) (msg : Envelope) :
    (r.enqueue maxMessageCount msg).1.flatten ++ (r.enqueue maxMessageCount msg).2.2.pendingBatch = r.pendingBatch ++ [msg] := by
  unfold BlockCutter.enqueue
  dsimp only
  split
  · simp [BlockCutter.cut]
  · rfl

theorem ordered_flatten (r : BlockCutter) (batchSize : BatchSize) (msg : Envelope) :
    (r.ordered batchSize msg).1.flatten ++ (r.ordered batchSize msg).2.2.pendingBatch = r.pendingBatch ++ [msg] := by
  unfold BlockCutter.ordered
  split
  · split
    case isTrue empty =>
      rw [List.isEmpty_iff] at empty
      simp [empty]
    case isFalse => simp [BlockCutter.cut]
  · split
    · have rest := enqueue_flatten ⟨[], 0⟩ batchSize.maxMessageCount msg
      simp only [nil_append] at rest
      simp only [BlockCutter.cut, flatten_cons, append_assoc]
      rw [rest]
    · exact enqueue_flatten r batchSize.maxMessageCount msg

def RequestOk (p : Support Config) (history : List Config) (msg : SubmitRequest) : Prop :=
  ∃ latest, msg.lastValidationSeq ≤ latest ∧ latest < history.length ∧
    (latest = msg.lastValidationSeq → ∃ config, history[latest]? = some config ∧ Accepted p config msg.payload)

theorem RequestOk.grow {msg : SubmitRequest} (ok : RequestOk p history msg) (more : List Config) : RequestOk p (history ++ more) msg := by
  obtain ⟨latest, above, inside, accepted⟩ := ok
  refine ⟨latest, above, ?_, ?_⟩
  · rw [length_append]
    omega
  · intro same
    obtain ⟨config, found, accepted'⟩ := accepted same
    exact ⟨config, getElem?_of_isPrefix (prefix_append history more) found, accepted'⟩

def inForce (first : Nat) (blocks : List (List Envelope)) (k : Nat) : Nat := first + (blocks.take k).countP isConfigBlock

def configsInflight (s : State Config) : Nat := (s.blocks.drop s.written).countP isConfigBlock

structure Inv (p : Support Config) (past : List Config) (cur : Config) (s : State Config) : Prop where
  placed : Placed p past cur s.history s.blocks
  requests : ∀ msg ∈ s.requests, RequestOk p s.history msg
  sequence : s.sequence = inForce past.length s.blocks s.written
  bound : s.written ≤ s.blocks.length
  pending : ∀ env ∈ s.cutter.pendingBatch, Ready p s.history env
  order : s.blocks.flatten ++ s.cutter.pendingBatch = s.accepted
  quiet : ∀ (k : Nat) (batch : List Envelope), s.blocks[k]? = some batch → isConfigBlock batch = true →
    k < s.written ∨ k + 1 = s.blocks.length
  idle : s.configInflight = false → configsInflight s = 0
  paused : s.configInflight = true → s.ticking = false ∧ s.cutter.pendingBatch = [] ∧ s.submitC = false
  changing : s.confChangeInProgress = true → s.configInflight = true ∧ configsInflight s = 0

theorem countP_split (s : State Config) :
    s.blocks.countP isConfigBlock = (s.blocks.take s.written).countP isConfigBlock + configsInflight s := by
  rw [configsInflight, ← countP_append, take_append_drop]

theorem Inv.upToDate (inv : Inv p past cur s) (none : configsInflight s = 0) : s.sequence + 1 = s.history.length := by
  rw [inv.placed.length, inv.sequence, countP_split s, none, inForce]
  omega

theorem Inv.latest (inv : Inv p past cur s) (none : configsInflight s = 0) : s.history[s.sequence]? = s.history.getLast? := by
  rw [getLast?_eq_getElem?, ← inv.upToDate none, Nat.add_sub_cancel]

theorem written_of_config (none : configsInflight s = 0) (found : s.blocks[k]? = some batch)
    (config : isConfigBlock batch = true) : k < s.written := by
  by_contra later
  rw [configsInflight, countP_eq_zero] at none
  apply none batch _ config
  apply mem_of_getElem? (i := k - s.written)
  rw [getElem?_drop, Nat.add_sub_cancel' (by omega)]
  exact found

theorem propose_eq (s : State Config) (batch : List Envelope) : s.propose p batch = { s with
    blocks := s.blocks ++ [batch], configInflight := s.configInflight || isConfigBlock batch,
    blockInflight := s.blockInflight + 1, history := s.history ++ newConfigs p batch } := by
  match batch with
  | [] | [_] | _ :: _ :: _ => rfl

theorem foldl_propose_normal (normal : ∀ batch ∈ batches, isConfigBlock batch = false) (s : State Config)
    : batches.foldl (State.propose p) s = { s with blocks := s.blocks ++ batches, blockInflight := s.blockInflight + batches.length } := by
  induction batches generalizing s with
  | nil => simp
  | cons batch batches ih =>
    have plain := normal batch (by simp)
    rw [foldl_cons, ih fun b member => normal b (by simp [member]), propose_eq, newConfigs_normal plain, plain]
    simp
    omega

theorem Placed.normals (placed : Placed p past cur history blocks)
    (ready : ∀ batch ∈ batches, ∀ env ∈ batch, Ready p history env) : Placed p past cur history (blocks ++ batches) := by
  induction batches generalizing blocks with
  | nil => rwa [append_nil]
  | cons batch batches ih =>
    have normal := fun env member => (ready batch (by simp) env member).normal
    have longer : Placed p past cur (history ++ newConfigs p batch) (blocks ++ [batch]) := by
      apply placed.concat
      · exact fun env member => (ready batch (by simp) env member).accepted
      · intro env member config
        rw [normal env member] at config
        cases config
    rw [newConfigs_normal (isConfigBlock_normal normal), append_nil] at longer
    have whole := ih longer fun b member => ready b (by simp [member])
    rwa [append_assoc] at whole

theorem inForce_append {first : Nat} (inside : k ≤ blocks.length) : inForce first (blocks ++ more) k = inForce first blocks k := by
  rw [inForce, take_append_of_le_length inside, inForce]

theorem Inv.normals (inv : Inv p past cur s) (batches : List (List Envelope)) (cutter : BlockCutter) (taken : List Envelope)
    (idle : s.configInflight = false) (split : batches.flatten ++ cutter.pendingBatch = s.cutter.pendingBatch ++ taken)
    (ready : ∀ env ∈ taken, Ready p s.history env) (ticking submitC : Bool) (blockInflight : Nat) : Inv p past cur { s with
      ticking, cutter, submitC, blockInflight, accepted := s.accepted ++ taken, blocks := s.blocks ++ batches } := by
  have all : ∀ env ∈ batches.flatten ++ cutter.pendingBatch, Ready p s.history env := by
    rw [split]
    intro env member
    rw [mem_append] at member
    exact member.elim (inv.pending env) (ready env)
  have batched : ∀ batch ∈ batches, ∀ env ∈ batch, Ready p s.history env := fun batch inside env member =>
    all env (mem_append_left _ (mem_flatten_of_mem inside member))
  have plain : ∀ batch ∈ batches, isConfigBlock batch = false := fun batch inside =>
    isConfigBlock_normal fun env member => (batched batch inside env member).normal
  have none := inv.idle idle
  have none' : ((s.blocks ++ batches).drop s.written).countP isConfigBlock = 0 := by
    rw [drop_append_of_le_length inv.bound, countP_append]
    rw [configsInflight] at none
    rw [none, Nat.zero_add, countP_eq_zero]
    intro batch inside
    rw [plain batch inside]
    simp
  constructor
  case placed => exact inv.placed.normals batched
  case requests => exact inv.requests
  case sequence => exact inv.sequence.trans (inForce_append inv.bound).symm
  case bound =>
    show s.written ≤ (s.blocks ++ batches).length
    rw [length_append]
    exact inv.bound.trans (Nat.le_add_right _ _)
  case pending => exact fun env member => all env (mem_append_right _ member)
  case order =>
    show (s.blocks ++ batches).flatten ++ cutter.pendingBatch = s.accepted ++ taken
    rw [flatten_append, append_assoc, split, ← append_assoc, inv.order]
  case quiet => exact fun k batch found config => .inl (written_of_config (s := { s with blocks := s.blocks ++ batches }) none' found config)
  case idle => exact fun _ => none'
  case paused => intro inflight; rw [show s.configInflight = true from inflight] at idle; cases idle
  case changing => intro changing; rw [(inv.changing changing).1] at idle; cases idle

theorem Inv.config (inv : Inv p past cur s) (idle : s.configInflight = false) (empty : s.cutter.pendingBatch = [])
    (accepted : ∃ config, s.history.getLast? = some config ∧ Accepted p config env) (blockInflight : Nat) :
    Inv p past cur { s with
      ticking := false, submitC := false, blockInflight, configInflight := true, accepted := s.accepted ++ [env],
      blocks := s.blocks ++ [[env]], history := s.history ++ newConfigs p [env] } := by
  have none := inv.idle idle
  constructor
  case placed =>
    apply inv.placed.concat
    · intro env' member
      rw [mem_singleton] at member
      exact member ▸ accepted
    · intro env' member _
      rw [mem_singleton] at member
      rw [member]
  case requests => exact fun msg member => (inv.requests msg member).grow _
  case sequence => exact inv.sequence.trans (inForce_append inv.bound).symm
  case bound =>
    show s.written ≤ (s.blocks ++ [[env]]).length
    rw [length_append]
    exact inv.bound.trans (Nat.le_add_right _ _)
  case pending =>
    intro env' member
    rw [show s.cutter.pendingBatch = [] from empty] at member
    cases member
  case order =>
    show (s.blocks ++ [[env]]).flatten ++ s.cutter.pendingBatch = s.accepted ++ [env]
    rw [← inv.order, empty]
    simp
  case quiet =>
    intro k batch found config
    show k < s.written ∨ k + 1 = (s.blocks ++ [[env]]).length
    by_cases old : k < s.blocks.length
    · left
      rw [show ({ s with blocks := s.blocks ++ [[env]] } : State Config).blocks[k]? = _ from
        getElem?_append_left old] at found
      exact written_of_config none found config
    · right
      have inside := (List.getElem?_eq_some_iff.mp found).1
      rw [length_append, length_singleton] at inside ⊢
      omega
  case idle => intro idle'; cases idle'
  case paused => exact fun _ => ⟨rfl, empty, rfl⟩
  case changing => intro changing; rw [(inv.changing changing).1] at idle; cases idle

variable {config : Config} {msg : SubmitRequest} {time finalTime : Nat} {out : Ordered}

theorem Inv.not_inflight (inv : Inv p past cur s) (open' : s.submitC = true) : s.configInflight = false := by
  rw [Bool.eq_false_iff]
  intro inflight
  rw [(inv.paused inflight).2.2] at open'
  cases open'

theorem processConfigMsg_accepted (processed : processConfigMsg p (.all config) time finalTime msg.payload = .ok env) :
    isConfig env = .ok true ∧ Accepted p config env := by
  unfold processConfigMsg at processed
  split at processed
  · cases processed
  · split at processed
    · cases processed
    · rename_i update _
      have config' := isConfig_of_update processed
      exact ⟨config', (accepted_config config').mpr ⟨time, finalTime, update, processed⟩⟩

section

variable (inv : Inv p past cur s) (now : s.history[s.sequence]? = some config)
  (known : msg ∈ s.requests ∨ msg.lastValidationSeq < s.sequence)
include inv now known

theorem Inv.request (none : configsInflight s = 0) (recent : ¬ msg.lastValidationSeq < s.sequence) : Accepted p config msg.payload := by
  obtain ⟨latest, above, inside, accepted⟩ := inv.requests msg (known.resolve_right recent)
  have length := inv.upToDate none
  have same : latest = s.sequence := by omega
  obtain ⟨config', found, accepted'⟩ := accepted (by omega)
  rw [same, now] at found
  cases found
  exact accepted'

theorem Inv.revalidateConfig (none : configsInflight s = 0) (isConfig' : isConfig msg.payload = .ok true)
    (checked : revalidateConfig p s.sequence config msg time finalTime = .ok env) : isConfig env = .ok true ∧ Accepted p config env := by
  unfold Fabric.Etcdraft.Ordering.revalidateConfig at checked
  split at checked
  case isTrue => exact processConfigMsg_accepted checked
  case isFalse recent =>
    cases checked
    exact ⟨isConfig', inv.request now known none recent⟩

theorem Inv.revalidateNormal (none : configsInflight s = 0) (normal : isConfig msg.payload = .ok false)
    (checked : revalidateNormal p s.sequence config msg time = .ok ()) : Accepted p config msg.payload := by
  unfold Fabric.Etcdraft.Ordering.revalidateNormal at checked
  split at checked
  case isTrue => exact (accepted_normal normal).mpr ⟨time, checked⟩
  case isFalse recent => exact inv.request now known none recent

theorem Inv.orderedConfig (idle : s.configInflight = false) (isConfig' : isConfig msg.payload = .ok true)
    (ordered : orderedConfig p s config msg time finalTime = .ok out) : Inv p past cur (s.submit p maxInflightBlocks out) := by
  have none := inv.idle idle
  obtain ⟨env, checked, rest⟩ := bind_eq_ok.mp ordered
  have accepted := inv.revalidateConfig now known none isConfig' checked
  have last : ∃ config, s.history.getLast? = some config ∧ Accepted p config env :=
    ⟨config, (inv.latest none).symm.trans now, accepted.2⟩
  have block : isConfigBlock [env] = true := isConfigBlock_singleton.mpr accepted.1
  split at rest
  · cases rest
    exact inv
  · cases rest
    generalize cutBatches : (if s.cutter.pendingBatch.isEmpty then [] else [s.cutter.pendingBatch]) = batches
    have split : batches.flatten ++ [] = s.cutter.pendingBatch ++ [] := by
      rw [← cutBatches]
      split
      case isTrue empty =>
        rw [List.isEmpty_iff] at empty
        simp [empty]
      case isFalse => simp
    have plain : ∀ batch ∈ batches, isConfigBlock batch = false := by
      rw [← cutBatches]
      intro batch member
      split at member
      · cases member
      · rw [mem_singleton] at member
        subst member
        exact isConfigBlock_normal fun env member => (inv.pending env member).normal
    have cut := inv.normals batches ⟨[], 0⟩ [] idle split (fun env member => by cases member) false s.submitC
      (s.blockInflight + batches.length)
    have proposed := cut.config idle rfl last (s.blockInflight + batches.length + 1)
    unfold State.submit
    rw [if_neg (by simp)]
    simp only [foldl_append, foldl_cons, foldl_nil, foldl_propose_normal plain, propose_eq, block, Bool.or_true,
      true_or, if_true, toList_some]
    rw [append_nil] at proposed
    exact proposed

theorem Inv.orderedNormal (idle : s.configInflight = false) (normal : isConfig msg.payload = .ok false)
    (ordered : orderedNormal p s config msg time = .ok out) : Inv p past cur (s.submit p maxInflightBlocks out) := by
  have none := inv.idle idle
  obtain ⟨_, checked, rest⟩ := bind_eq_ok.mp ordered
  have accepted := inv.revalidateNormal now known none normal checked
  have ready : ∀ env ∈ [msg.payload], Ready p s.history env := by
    intro env member
    rw [mem_singleton] at member
    subst member
    exact ⟨normal, config, (inv.latest none).symm.trans now, accepted⟩
  have split := ordered_flatten s.cutter (p.batchSize config) msg.payload
  generalize s.cutter.ordered (p.batchSize config) msg.payload = cut at split rest
  obtain ⟨batches, pending, cutter⟩ := cut
  cases rest
  have plain : ∀ batch ∈ batches, isConfigBlock batch = false := by
    intro batch member
    apply isConfigBlock_normal
    intro env inside
    have whole : env ∈ batches.flatten ++ cutter.pendingBatch := mem_append_left _ (mem_flatten_of_mem member inside)
    rw [split, mem_append] at whole
    exact whole.elim (fun old => (inv.pending env old).normal) fun new => (ready env new).normal
  unfold State.submit
  dsimp only
  split
  · exact inv
  · rw [foldl_propose_normal plain]
    dsimp only [toList_some]
    split
    · exact inv.normals batches cutter _ idle split ready pending false _
    · exact inv.normals batches cutter _ idle split ready pending s.submitC _

theorem Inv.submit (open' : s.submitC = true)
    (ordered : ordered p s config msg time finalTime = .ok out) : Inv p past cur (s.submit p maxInflightBlocks out) := by
  have idle := inv.not_inflight open'
  obtain ⟨type, read, rest⟩ := bind_eq_ok.mp ordered
  cases type with
  | true => exact inv.orderedConfig now known idle read rest
  | false => exact inv.orderedNormal now known idle read rest

/-- No config update takes effect between the check of the consensus state and the read of the sequence. -/
def Steady : Step → Prop
  | .processNormal reads _ _ => reads.state = reads.sequence
  | _ => True

end

theorem normalReads_mapM (read : reads.mapM history = some configs) :
    history[reads.state]? = some configs.state ∧ history[reads.sequence]? = some configs.sequence ∧
      history[reads.filters]? = some configs.filters := by
  simp only [NormalReads.mapM, bind, bind_eq_some_iff, some.injEq] at read
  obtain ⟨state, foundState, sequence, foundSequence, filters, foundFilters, rfl⟩ := read
  exact ⟨foundState, foundSequence, foundFilters⟩

theorem updateReads_mapM {reads : UpdateReads Nat} {configs : UpdateReads Config} (read : reads.mapM history = some configs) :
    history[reads.filters]? = some configs.filters ∧ history[reads.update]? = some configs.update ∧
      history[reads.finalFilters]? = some configs.finalFilters ∧ history[reads.maintenance]? = some configs.maintenance := by
  simp only [UpdateReads.mapM, bind, bind_eq_some_iff, some.injEq] at read
  obtain ⟨_, _, filters, foundFilters, update, foundUpdate, final, foundFinal, maintenance, foundMaintenance, rfl⟩ := read
  exact ⟨foundFilters, foundUpdate, foundFinal, foundMaintenance⟩

theorem isConfig_of_normalMsg (normal : env.header.map classifyMsg = some .normalMsg) : isConfig env = .ok false := by
  obtain ⟨type, header, class'⟩ := map_eq_some_iff.mp normal
  rw [isConfig, header]
  cases type <;> first | rfl | cases class'

theorem requestOk_normal (ordered : reads.ordered) (steady : reads.state = reads.sequence)
    (normal : env.header.map classifyMsg = some .normalMsg) (read : reads.mapM history = some configs)
    (processed : processNormalMsg p configs time env = .ok ()) : RequestOk p history ⟨reads.sequence, env⟩ := by
  obtain ⟨state, _, filters⟩ := normalReads_mapM read
  obtain ⟨inside, _⟩ := List.getElem?_eq_some_iff.mp filters
  refine ⟨reads.filters, ordered.2, inside, ?_⟩
  intro same
  rw [steady, ← show reads.filters = reads.sequence from same, filters] at state
  injection state with state
  refine ⟨configs.filters, filters, (accepted_normal (isConfig_of_normalMsg normal)).mpr ⟨time, ?_⟩⟩
  unfold processNormalMsg at processed ⊢
  rw [← state] at processed
  exact processed

theorem requestOk_config {reads : UpdateReads Nat} {configs : UpdateReads Config} (ordered : reads.ordered)
    (read : reads.mapM history = some configs) (processed : processConfigUpdateMsg p configs time finalTime update = .ok env) :
    RequestOk p history ⟨reads.sequence, env⟩ := by
  obtain ⟨filters, updated, final, maintenance⟩ := updateReads_mapM read
  obtain ⟨inside, _⟩ := List.getElem?_eq_some_iff.mp maintenance
  unfold UpdateReads.ordered at ordered
  refine ⟨reads.maintenance, by show reads.sequence ≤ _; omega, inside, ?_⟩
  intro same
  change reads.maintenance = reads.sequence at same
  rw [show reads.filters = reads.maintenance by omega, maintenance] at filters
  rw [show reads.update = reads.maintenance by omega, maintenance] at updated
  rw [show reads.finalFilters = reads.maintenance by omega, maintenance] at final
  injection filters with filters
  injection updated with updated
  injection final with final
  refine ⟨configs.maintenance, maintenance, (accepted_config (isConfig_of_update processed)).mpr ⟨time, finalTime, update, ?_⟩⟩
  unfold processConfigUpdateMsg at processed ⊢
  rw [← filters, ← updated, ← final] at processed
  exact processed

section

variable (inv : Inv p past cur s)
include inv

theorem Inv.request_added (ok : RequestOk p s.history msg) : Inv p past cur { s with requests := s.requests ++ [msg] } := by
  refine { inv with requests := ?_ }
  intro other member
  rw [mem_append, mem_singleton] at member
  cases member with
  | inl old => exact inv.requests other old
  | inr new =>
    subst new
    exact ok

theorem Inv.resume : Inv p past cur (s.resume maxInflightBlocks) := by
  unfold State.resume
  split
  case isTrue inflight =>
    refine { inv with paused := ?_ }
    intro _
    exact ⟨(inv.paused inflight).1, (inv.paused inflight).2.1, rfl⟩
  case isFalse idle =>
    split
    · refine { inv with paused := ?_ }
      intro inflight
      exact absurd inflight idle
    · exact inv

theorem Inv.writeBlock (found : s.blocks[s.written]? = some batch) (confChange : Bool) : Inv p past cur (s.writeBlock batch confChange) := by
  obtain ⟨inside, same⟩ := List.getElem?_eq_some_iff.mp found
  have rest : s.blocks.drop s.written = batch :: s.blocks.drop (s.written + 1) := by
    rw [drop_eq_getElem_cons inside, same]
  have count : configsInflight s = (s.blocks.drop (s.written + 1)).countP isConfigBlock + (isConfigBlock batch).toNat := by
    rw [configsInflight, rest, countP_cons]
    cases isConfigBlock batch <;> rfl
  have sequence : inForce past.length s.blocks (s.written + 1) = s.sequence + (isConfigBlock batch).toNat := by
    rw [inForce, take_add_one, found, countP_append, inv.sequence, inForce, Nat.add_assoc]
    cases config : isConfigBlock batch <;> simp [config]
  have quiet (k : Nat) (other : List Envelope) (found' : s.blocks[k]? = some other) (config : isConfigBlock other = true) :
      k < s.written + 1 ∨ k + 1 = s.blocks.length := by
    rcases inv.quiet k other found' config with earlier | last
    · exact .inl (by omega)
    · exact .inr last
  unfold State.writeBlock
  dsimp only
  cases config : isConfigBlock batch with
  | false =>
    rw [config, Bool.toNat_false, Nat.add_zero] at count sequence
    rw [if_neg (by simp)]
    refine { inv with sequence := sequence.symm, bound := inside, quiet, idle := ?_, changing := ?_ }
    · intro idle
      exact count.symm.trans (inv.idle idle)
    · intro changing
      exact ⟨(inv.changing changing).1, count.symm.trans (inv.changing changing).2⟩
  | true =>
    have last : s.written + 1 = s.blocks.length := by
      rcases inv.quiet s.written batch found config with earlier | last
      · omega
      · exact last
    rw [config, Bool.toNat_true] at count sequence
    have inflight : s.configInflight = true := by
      by_contra idle
      have := inv.idle (by simpa using idle)
      omega
    have steady : s.confChangeInProgress = false := by
      rw [Bool.eq_false_iff]
      intro changing
      have := (inv.changing changing).2
      omega
    have none : (s.blocks.drop (s.written + 1)).countP isConfigBlock = 0 := by
      rw [last, drop_length]
      rfl
    rw [if_pos rfl]
    refine { inv with sequence := sequence.symm, bound := inside, quiet, idle := fun _ => none, paused := ?_, changing := ?_ }
    · intro _
      exact inv.paused inflight
    · intro changing
      change (s.confChangeInProgress || confChange) = true at changing
      rw [steady, Bool.false_or] at changing
      exact ⟨changing, none⟩

theorem Inv.timer (ticking : s.ticking = true) :
    Inv p past cur (if s.cutter.pendingBatch.isEmpty then { s with ticking := false, cutter := ⟨[], 0⟩ }
      else State.propose p { s with ticking := false, cutter := ⟨[], 0⟩ } s.cutter.pendingBatch) := by
  have idle : s.configInflight = false := by
    rw [Bool.eq_false_iff]
    intro inflight
    rw [(inv.paused inflight).1] at ticking
    cases ticking
  have nothing : ∀ env ∈ ([] : List Envelope), Ready p s.history env := fun env member => by cases member
  split
  case isTrue empty =>
    rw [List.isEmpty_iff] at empty
    have cut := inv.normals [] ⟨[], 0⟩ [] idle (by simp [empty]) nothing false s.submitC s.blockInflight
    rw [append_nil, append_nil] at cut
    exact cut
  case isFalse =>
    have plain : isConfigBlock s.cutter.pendingBatch = false :=
      isConfigBlock_normal fun env member => (inv.pending env member).normal
    have cut := inv.normals [s.cutter.pendingBatch] ⟨[], 0⟩ [] idle (by simp) nothing false s.submitC
      (s.blockInflight + 1)
    rw [propose_eq, plain, newConfigs_normal plain, append_nil, Bool.or_false]
    rw [append_nil] at cut
    exact cut

end

theorem Inv.step {step : Step} (inv : Inv p past cur s) (steady : Steady step) (taken : s.step p maxInflightBlocks step = some s') :
    Inv p past cur s' := by
  cases step with
  | processNormal reads time env =>
    simp only [State.step] at taken
    split at taken
    case isFalse => cases taken
    case isTrue guard =>
      obtain ⟨configs, read, rest⟩ := bind_eq_some_iff.mp taken
      obtain ⟨_, processed, rest⟩ := bind_eq_some_iff.mp rest
      cases rest
      exact inv.request_added (requestOk_normal guard.1 steady guard.2 read (toOption_eq_some.mp processed))
  | processConfigUpdate reads time finalTime env =>
    simp only [State.step] at taken
    split at taken
    case isFalse => cases taken
    case isTrue guard =>
      obtain ⟨configs, read, rest⟩ := bind_eq_some_iff.mp taken
      obtain ⟨_, processed, rest⟩ := bind_eq_some_iff.mp rest
      cases rest
      exact inv.request_added (requestOk_config guard.1 read (toOption_eq_some.mp processed))
  | submit msg time finalTime =>
    simp only [State.step] at taken
    split at taken
    case isFalse => cases taken
    case isTrue guard =>
      obtain ⟨config, now, rest⟩ := bind_eq_some_iff.mp taken
      obtain ⟨out, ordered, rest⟩ := bind_eq_some_iff.mp rest
      cases rest
      exact inv.submit now guard.2 guard.1 (toOption_eq_some.mp ordered)
  | timer =>
    simp only [State.step] at taken
    split at taken
    case isFalse => cases taken
    case isTrue ticking =>
      cases taken
      exact inv.timer ticking
  | write confChange =>
    obtain ⟨batch, found, rest⟩ := bind_eq_some_iff.mp taken
    cases rest
    exact (inv.writeBlock found confChange).resume
  | applyConfChange =>
    simp only [State.step] at taken
    split at taken
    case isFalse => cases taken
    case isTrue changing =>
      cases taken
      apply Inv.resume
      refine { inv with idle := ?_, paused := ?_, changing := ?_ }
      · exact fun _ => (inv.changing changing).2
      · intro inflight
        cases inflight
      · intro changing'
        cases changing'
  | apply =>
    cases taken
    exact inv.resume

theorem inv_newLeader (past : List Config) (cur : Config) : Inv p past cur (newLeader past cur) where
  placed := by
    refine ⟨rfl, ?_, ?_⟩
    · intro _ _ found
      cases found
    · intro _ member
      cases member
  requests := fun _ member => by cases member
  sequence := rfl
  bound := Nat.le_refl _
  pending := fun _ member => by cases member
  order := rfl
  quiet := fun _ _ found => by cases found
  idle := fun _ => rfl
  paused := fun inflight => by cases inflight
  changing := fun changing => by cases changing

/-- Envelopes are in blocks at whose position a config that accepts them is in force, config envelopes alone; the blocks
and the pending batch hold what the leader has taken, in order; and an unwritten config block is the last one. -/
structure RightlyOrdered (p : Support Config) (cur : Config) (s : State Config) : Prop where
  accepted : ∀ (k : Nat) (batch : List Envelope), s.blocks[k]? = some batch → ∀ env ∈ batch,
    Accepted p (configAt p cur s.blocks k) env
  alone : ∀ batch ∈ s.blocks, ∀ env ∈ batch, isConfig env = .ok true → batch = [env]
  order : s.blocks.flatten ++ s.cutter.pendingBatch = s.accepted
  quiet : ∀ (k : Nat) (batch : List Envelope), s.blocks[k]? = some batch → isConfigBlock batch = true →
    k < s.written ∨ k + 1 = s.blocks.length

theorem ordered_under_config_in_force {steps : List Step}
    (run : Reaches (State.step p maxInflightBlocks) (fun _ step => Steady step) (newLeader past cur) steps s) :
    RightlyOrdered p cur s := by
  have inv : Inv p past cur s := by
    apply run.invariant fun _ s => Inv p past cur s
    · exact inv_newLeader past cur
    · intro _ s step s' inv steady taken
      exact inv.step steady taken
  exact ⟨inv.placed.accepted, inv.placed.alone, inv.order, inv.quiet⟩

def maintenanceSupport : Support Bool where
  consensusTypeMigration _ := true
  stateNormal maintenance := !maintenance
  batchSize _ := ⟨10, 1000⟩
  filters _ _ _ := true
  proposeConfigUpdate _ env := some env.payload
  sign bytes := bytes
  maintenanceFilter _ _ := true
  lastUpdate bytes := some ⟨some .configUpdate, bytes, []⟩
  createBundle bytes := bytes = [1]
  checkForEvictionNCertRotation _ _ := false

def enter : Envelope := ⟨some .configUpdate, [1], []⟩
def entered : Envelope := ⟨some .config, [1], [1]⟩
def transaction : Envelope := ⟨some (.other 3), [7], []⟩

def racingUpdate : List Step :=
  [.processConfigUpdate (.all 0) 0 0 enter, .submit ⟨0, entered⟩ 0 0, .processNormal ⟨0, 1, 1⟩ 0 transaction, .write false,
   .submit ⟨1, transaction⟩ 0 0, .timer]

theorem racingUpdate_ordersRejected :
    ∃ s, Reaches (State.step maintenanceSupport 5) (fun _ _ => True) (newLeader [] false) racingUpdate s ∧
      s.blocks = [[entered], [transaction]] ∧
      ¬ Accepted maintenanceSupport (configAt maintenanceSupport false s.blocks 1) transaction := by
  refine exists_reaches (fun s => s.blocks = [[entered], [transaction]]) (by decide +kernel) fun s _ blocks => ⟨blocks, ?_⟩
  rw [blocks]
  intro accepted
  obtain ⟨time, processed⟩ : AcceptedNormal maintenanceSupport true transaction := accepted
  cases processed

instance decidableSteady : (step : Step) → Decidable (Steady step)
  | .processNormal reads _ _ => inferInstanceAs (Decidable (reads.state = reads.sequence))
  | .processConfigUpdate _ _ _ _ | .submit _ _ _ | .timer | .write _ | .applyConfChange | .apply =>
    inferInstanceAs (Decidable True)

def earlierTransaction : List Step :=
  [.processNormal (.all 0) 0 transaction, .processConfigUpdate (.all 0) 0 0 enter, .submit ⟨0, transaction⟩ 0 0,
   .submit ⟨0, entered⟩ 0 0, .write false, .write true, .applyConfChange]

theorem earlierTransaction_rightlyOrdered :
    ∃ s : Fabric.Etcdraft.Ordering.State Bool, s.blocks = [[transaction], [entered]] ∧ s.submitC = true ∧
      RightlyOrdered maintenanceSupport false s := by
  have evaluated : ((checkRun (State.step maintenanceSupport 5) (fun _ step => Steady step) (newLeader [] false)
      earlierTransaction).any fun s => s.blocks == [[transaction], [entered]] && s.submitC) = true := by
    decide +kernel
  obtain ⟨s, run, read⟩ := (Option.any_eq_true ..).mp evaluated
  rw [Bool.and_eq_true, beq_iff_eq] at read
  exact ⟨s, read.1, read.2, ordered_under_config_in_force (reaches_of_checkRun run)⟩

end Fabric.Proof.Etcdraft.Ordering
