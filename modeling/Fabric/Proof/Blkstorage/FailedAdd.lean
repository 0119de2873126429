import Fabric.Proof.Blkstorage.Retrieval

/-! # Calls of `addBlock` that fail -/

namespace Fabric.Proof.Blkstorage

open Lib Fabric.Blkstorage

variable {Envelope : Type} {pbs : Protos Envelope}

theorem Stored.accepts_iff {chain : Chain} {layout : Layout} {last : List Block} {mgr : BlockfileMgr}
    (stored : Stored pbs chain layout last mgr) (limit : Nat) {block : Block} (inMemory : InMemory block) :
    (mgr.addBlock pbs limit block none).2 = .ok () ↔ chain.Next pbs block ∧ Indexable block := by
  by_cases next : chain.Next pbs block
  · obtain ⟨accepted, panics⟩ := stored.addBlock_none inMemory next limit
    by_cases indexable : Indexable block
    · obtain ⟨mgr', _, _, result, _, _⟩ := accepted indexable
      simp [result, next, indexable]
    · obtain ⟨mgr', msg, result⟩ := panics indexable
      simp [result, indexable]
  · obtain ⟨msg, result⟩ := stored.toLaid.addBlock_of_not_next next limit none
    simp [result, next]

/-- Whatever calls have failed, the store answers from the blocks that were added, accepts the blocks that come next
after them, and is the same when it is opened again. -/
theorem failedAdd_invisible (injective : Function.Injective pbs.blockHeaderHash) {start : Start} (fits : Start.Fits start)
    {limit : Nat} {mgr : BlockfileMgr} (opened : newBlockfileMgr pbs start.disk = .ok mgr) {ops : List Op}
    {s : Session} (run : Reaches (Session.step pbs limit) (Op.Harmless limit) ⟨mgr, [], []⟩ ops s) :
    (∀ query, BlockfileMgr.answer pbs s.mgr query = (Chain.mk start s.added).answer pbs query) ∧
    (∀ block, InMemory block → ((s.mgr.addBlock pbs limit block none).2 = .ok () ↔
      (Chain.mk start s.added).Next pbs block ∧ Indexable block)) ∧
    (∀ reader ∈ s.readers, reader.served <+: s.added.drop (reader.startNum - Start.first start) ∧
      ∀ block, (s.added.drop (reader.startNum - Start.first start))[reader.served.length]? = some block →
        ∃ itr, reader.itr.next pbs s.mgr = some (.ok (block, itr))) ∧
    newBlockfileMgr pbs s.mgr.disk = .ok s.mgr := by
  obtain ⟨layout, last, stored, readers⟩ := Session.Sound.run opened run
  refine ⟨?_, ?_, ?_, stored.reopen⟩
  · intro query
    exact stored.answer fits injective query
  · intro block inMemory
    exact stored.accepts_iff limit inMemory
  · intro reader mem
    exact (readers reader mem).serves stored

namespace TwoBlocks

def other : Block := ⟨⟨1, hash block0.header, [9]⟩, [[6, 6]], [[], [], [0]]⟩

instance (limit : Nat) (s : Session) : (op : Op) → Decidable (Op.Harmless limit s op)
  | .addBlock block none => inferInstanceAs (Decidable (InMemory block))
  | .addBlock _ (some _) => inferInstanceAs (Decidable (_ ∧ _ ∧ _))
  | .reopen => isTrue trivial
  | .retrieveBlocks _ => isTrue trivial
  | .next _ => isTrue trivial

def afterFailedAppend : List Op := [.addBlock block0 none, .addBlock other (some (.append 3 true)), .addBlock block1 none]

theorem failedAppend_invisible : ∃ s,
    Reaches (Session.step plainProtos 20) (Op.Harmless 20) ⟨newStore, [], []⟩ afterFailedAppend s ∧
    BlockfileMgr.answer plainProtos s.mgr (.blockByNumber 1) = .block (.ok block1) ∧
    newBlockfileMgr plainProtos s.mgr.disk = .ok s.mgr := by
  refine exists_reaches (fun s => s.added = [block0, block1]) (by decide +kernel) fun s run added => ?_
  obtain ⟨answers, _, _, reopened⟩ :=
    failedAdd_invisible hash_injective ⟨by simp [Start.txIDs], by decide, by decide⟩ opened run
  refine ⟨?_, reopened⟩
  rw [answers, added]
  rfl

def afterFailedIndex : List Op := [.addBlock block0 none, .addBlock other (some .index)]

theorem failedIndex_visible : (∃ s, Reaches (Session.step plainProtos 100) (fun _ _ => True) ⟨newStore, [], []⟩
      (afterFailedIndex ++ [.addBlock block1 none]) s ∧ s.added = [block0, block1] ∧
      s.mgr.retrieveBlockByNumber plainProtos 1 = .ok other ∧
      (Chain.mk .empty s.added).answer plainProtos (.blockByNumber 1) = .block (.ok block1)) ∧
    ∃ s, Reaches (Session.step plainProtos 100) (fun _ _ => True) ⟨newStore, [], []⟩ (afterFailedIndex ++ [.reopen]) s ∧
      s.added = [block0] ∧ s.mgr.bcInfo.height = 2 := by
  constructor
  · refine exists_reaches (fun s => s.added = [block0, block1] ∧ s.mgr.retrieveBlockByNumber plainProtos 1 = .ok other)
      (by decide +kernel) fun s _ ⟨added, retrieved⟩ => ⟨added, retrieved, ?_⟩
    rw [added]
    rfl
  · exact exists_reaches _ (by decide +kernel) fun _ _ => id

end TwoBlocks

end Fabric.Proof.Blkstorage
