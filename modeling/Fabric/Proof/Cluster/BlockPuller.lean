import Fabric.Cluster.BlockPuller
import Fabric.Lib.Extract

/-! # Pulled blocks are verified -/

namespace Fabric.Proof.Cluster

open Lib Fabric.Cluster List Option

variable {Block : Type} {conf : PullerConf Block} {p q : Puller Block} {seq : UInt64}

def Consecutive (conf : PullerConf Block) (seq : UInt64) : List Block → Prop
  | [] => True
  | block :: blocks => conf.number block = seq ∧ Consecutive conf (seq + 1) blocks

def Verified (conf : PullerConf Block) (receptions : List (Reception Block)) (block : Nat × Block) : Prop :=
  ∃ r, receptions[block.1]? = some r ∧ r.accepted = true ∧ Consecutive conf r.seq r.blocks ∧ block.2 ∈ r.blocks

def Buffered (conf : PullerConf Block) (p : Puller Block) : Prop := ∀ block ∈ p.blockBuff, Verified conf p.receptions block

structure Fetched (conf : PullerConf Block) (seq : UInt64) (p : Puller Block) (out : Option (Nat × Block) × Puller Block) :
    Prop where
  buffered : Buffered conf out.2
  kept : p.receptions <+: out.2.receptions
  returned : ∀ block ∈ out.1, conf.number block.2 = seq ∧ Verified conf out.2.receptions block

theorem Verified.mono {receptions later : List (Reception Block)} {block : Nat × Block}
    (verified : Verified conf receptions block) (kept : receptions <+: later) : Verified conf later block := by
  obtain ⟨r, found, rest⟩ := verified
  exact ⟨r, getElem?_of_isPrefix kept found, rest⟩

theorem fetched_of_empty (empty : p.blockBuff = []) (kept : q.receptions <+: p.receptions) :
    Fetched conf seq q (none, p) := by
  refine ⟨?_, kept, by simp⟩
  intro block mem
  rw [empty] at mem
  cases mem

theorem fetched_failed (kept : q.receptions <+: p.receptions) : Fetched conf seq q p.failed :=
  fetched_of_empty (p := p.close) rfl kept

theorem popBlock_fetched (buffered : Buffered conf p) (seq : UInt64) : Fetched conf seq p (p.popBlock conf seq) := by
  unfold Puller.popBlock
  split
  · exact fetched_of_empty ‹_› prefix_rfl
  · rename_i block rest isBuffer
    split
    · exact fetched_of_empty rfl prefix_rfl
    · rename_i same
      refine ⟨?_, prefix_rfl, ?_⟩
      · intro other mem
        exact buffered other (by rw [isBuffer]; exact mem_cons_of_mem _ mem)
      · intro found isFound
        obtain rfl := some.inj isFound
        exact ⟨(of_not_not same).symm, buffered block (by rw [isBuffer]; exact mem_cons_self)⟩

theorem receive_consecutive (conf : PullerConf Block) (seq latestSeq : UInt64) (totalSize : Nat) (responses : List (Option Block)) :
    Consecutive conf seq (receive conf latestSeq totalSize seq responses).1 := by
  induction responses generalizing totalSize seq with
  | nil => trivial
  | cons response responses ih =>
    unfold receive
    split
    · cases response with
      | none => trivial
      | some block =>
        dsimp only
        split
        · trivial
        · rename_i same
          exact ⟨of_not_not same, ih _ _⟩
    · trivial

theorem pullBlocks_fetched (fetch : Fetch Block) : Fetched conf seq p (p.pullBlocks conf seq fetch) := by
  have consecutive := receive_consecutive conf seq p.latestSeq 0 fetch.responses
  unfold Puller.pullBlocks
  generalize receive conf p.latestSeq 0 seq fetch.responses = out at consecutive ⊢
  obtain ⟨blocks, received⟩ := out
  dsimp only
  have kept : p.receptions <+: p.receptions ++ [⟨seq, blocks, received && fetch.verifyBlockSequence blocks⟩] :=
    prefix_append _ _
  split
  · exact fetched_failed kept
  · split
    · exact fetched_of_empty rfl kept
    · rename_i accepted
      have accepted : (received && fetch.verifyBlockSequence blocks) = true := by simpa using accepted
      have buffered : Buffered conf { p with
          blockBuff := blocks.map (p.receptions.length, ·)
          receptions := p.receptions ++ [⟨seq, blocks, received && fetch.verifyBlockSequence blocks⟩] } := by
        intro block mem
        obtain ⟨b, listed, rfl⟩ := List.mem_map.mp mem
        exact ⟨_, getElem?_concat_length, accepted, consecutive, listed⟩
      obtain ⟨after, grown, returned⟩ := popBlock_fetched buffered seq
      exact ⟨after, kept.trans grown, returned⟩

theorem connect_fields (retriesLeft : Nat) (connects : List Connect) :
    (∀ q ∈ (p.connect conf retriesLeft connects).1, q.blockBuff = p.blockBuff ∧ q.receptions = p.receptions) ∧
      (p.connect conf retriesLeft connects).2.blockBuff = p.blockBuff ∧
      (p.connect conf retriesLeft connects).2.receptions = p.receptions := by
  induction connects generalizing retriesLeft with
  | nil => simp [Puller.connect]
  | cons c cs ih =>
    unfold Puller.connect
    split
    · dsimp only
      split
      · simp
      · simp
    · split
      · simp
      · exact ih _

theorem tryFetchBlock_fetched (buffered : Buffered conf p) (fetch : Fetch Block) : Fetched conf seq p (p.tryFetchBlock conf seq fetch) := by
  have popped := popBlock_fetched buffered seq
  unfold Puller.tryFetchBlock
  split
  · rename_i block q isPop
    rw [isPop] at popped
    exact popped
  · rename_i q isPop
    rw [isPop] at popped
    have kept : p.receptions <+: q.receptions := popped.kept
    have go : ∀ r : Puller Block, r.receptions = q.receptions → ∀ ready : Bool,
        Fetched conf seq p (if ready then r.pullBlocks conf seq fetch else r.failed) := by
      intro r same ready
      cases ready with
      | false => exact fetched_failed (same ▸ kept)
      | true =>
        obtain ⟨after, grown, returned⟩ := @pullBlocks_fetched _ conf r seq fetch
        exact ⟨after, (same ▸ kept).trans grown, returned⟩
    split
    · exact go q rfl fetch.seekEnvelope
    · obtain ⟨proceeds, buffer, receptions⟩ := @connect_fields _ conf q conf.maxPullBlockRetries fetch.connects
      split
      · rename_i r isConnect
        rw [isConnect] at buffer receptions
        refine ⟨?_, receptions ▸ kept, by simp⟩
        intro block mem
        rw [receptions]
        exact popped.buffered block (buffer ▸ mem)
      · rename_i r _ isConnect
        rw [isConnect] at proceeds
        have ready := go r (proceeds r rfl).2 (decide (fetch.seekEnvelope ∧ fetch.requestBlocks))
        simpa only [decide_eq_true_eq] using ready

theorem pullBlock_fetched (buffered : Buffered conf p) (retriesLeft : Nat) (fetches : List (Fetch Block)) :
    Fetched conf seq p (p.pullBlock conf seq retriesLeft fetches) := by
  induction fetches generalizing p retriesLeft with
  | nil => exact ⟨buffered, prefix_rfl, by simp [Puller.pullBlock]⟩
  | cons fetch fetches ih =>
    have fetched : Fetched conf seq p (p.tryFetchBlock conf seq fetch) := tryFetchBlock_fetched buffered fetch
    unfold Puller.pullBlock
    split
    · rename_i block q isFetch
      rw [isFetch] at fetched
      exact fetched
    · rename_i q isFetch
      rw [isFetch] at fetched
      split
      · exact fetched
      · obtain ⟨after, grown, returned⟩ := ih fetched.buffered (retriesLeft - 1)
        exact ⟨after, fetched.kept.trans grown, returned⟩

theorem calls_verified (buffered : Buffered conf p) (calls : List (PullerCall Block)) :
    p.receptions <+: (p.calls conf calls).2.receptions ∧ ∀ r ∈ (p.calls conf calls).1,
      conf.number r.2.2 = r.1 ∧ Verified conf (p.calls conf calls).2.receptions r.2 := by
  induction calls generalizing p with
  | nil => exact ⟨prefix_rfl, by simp [Puller.calls]⟩
  | cons call calls ih =>
    cases call with
    | close => exact ih (p := p.close) fun block mem => by cases mem
    | updateEndpoints => exact ih (p := p.disconnect) buffered
    | pullBlock seq fetches =>
      obtain ⟨after, kept, returned⟩ := @pullBlock_fetched _ conf p seq buffered conf.maxPullBlockRetries fetches
      obtain ⟨grown, later⟩ := ih after
      refine ⟨kept.trans grown, ?_⟩
      intro r mem
      rcases mem_append.mp mem with here | after
      · obtain ⟨block, isBlock, rfl⟩ := map_eq_some_iff.mp (mem_toList.mp here)
        obtain ⟨number, verified⟩ := returned block isBlock
        exact ⟨number, verified.mono grown⟩
      · exact later r after

/-- A block that a call returns has the number asked for and comes from a buffer of consecutive blocks that was
received to its end and verified as a whole. -/
theorem pulledBlocks_verified (conf : PullerConf Block) (calls : List (PullerCall Block)) :
    ∀ r ∈ (newPuller.calls conf calls).1, conf.number r.2.2 = r.1 ∧
      ∃ reception, (newPuller.calls conf calls).2.receptions[r.2.1]? = some reception ∧ reception.accepted = true ∧
        Consecutive conf reception.seq reception.blocks ∧ r.2.2 ∈ reception.blocks :=
  (calls_verified (fun block mem => by cases mem) calls).2

theorem pulledBlock_verified :
    let fetch : Fetch UInt64 := ⟨[⟨some 5, false⟩], true, true, [some 5], fun _ => true, false⟩
    let receptions := (newPuller.calls ⟨2, 10, id, fun _ => 1⟩ [.pullBlock 5 [fetch]]).2.receptions
    ∃ reception, receptions[0]? = some reception ∧ reception.accepted = true ∧ 5 ∈ reception.blocks := by
  intro fetch receptions
  obtain ⟨_, reception, received, accepted, _, mem⟩ := pulledBlocks_verified ⟨2, 10, id, fun _ => 1⟩
    [.pullBlock 5 [fetch]] (5, 0, 5) (by decide)
  exact ⟨reception, received, accepted, mem⟩

end Fabric.Proof.Cluster
