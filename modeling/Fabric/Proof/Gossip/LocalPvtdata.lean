import Fabric.Proof.Gossip.RetrievedPvtdata

/-! # Private data from the transient store is kept -/

namespace Fabric.Proof.Privdata

open Lib Fabric.Ledger Fabric.Gossip.Privdata TxPvtReadWriteSet Gossip.Privdata Std.ExtTreeMap TwoHashes
open List hiding getElem?_insert mem_of_mem_erase

variable {Config : Type} {p : PvtdataProvider Config} {k key : RwSetKey} {hash rwset : Bytes} {s : Retrieval}

def Held (p : PvtdataProvider Config) (k : RwSetKey) (hash : Bytes) (s : Retrieval) : Prop :=
  k ∉ s.info.remainingEligibleMissingKeys ∧ ∃ rwset, s.pvtdata[k]? = some rwset ∧ p.computeSHA256 rwset = hash

def Sought (k : RwSetKey) (hash : Bytes) (s : Retrieval) : Prop :=
  k ∈ s.info.remainingEligibleMissingKeys ∧ s.info.expectedHashes.getD k [] = hash

section

variable (held : Held p k hash s)
include held

theorem Held.resolve : Held p k hash (s.resolve key) :=
  ⟨fun mem => held.1 (mem_of_mem_erase mem), held.2⟩

theorem Held.store (missing : s.isMissing key) : Held p k hash (s.store key rwset) := by
  have other : key ≠ k := fun same => held.1 (same ▸ isMissing_iff.mp missing)
  obtain ⟨found, isFound, isHash⟩ := held.2
  exact ⟨held.resolve.1, found, by simpa [Retrieval.store, getElem?_insert, other] using isFound, isHash⟩

theorem Held.reconcileLater : Held p k hash (s.reconcileLater key) := by
  unfold Retrieval.reconcileLater
  split
  · exact held
  · exact held.resolve

theorem Held.settle : Held p k hash (p.settle s key rwset) := by
  unfold PvtdataProvider.settle
  split
  · exact held
  · rename_i missing
    split
    · exact held.store (not_not.mp missing)
    · exact held.reconcileLater

theorem Held.settleFromTransientStore (found : Bytes × CollectionPvtReadWriteSet) :
    Held p k hash (p.settleFromTransientStore key s found) := by
  rw [PvtdataProvider.settleFromTransientStore]
  split
  · exact held
  · rename_i missing
    split
    · exact held
    · exact held.store (not_not.mp missing)

end

section

variable (sought : Sought k hash s)
include sought

theorem Sought.store (isHash : p.hasExpectedHash s key rwset) : Held p k hash (s.store key rwset) ∨ Sought k hash (s.store key rwset) := by
  by_cases same : key = k
  · subst same
    refine .inl ⟨by simp [Retrieval.store, Retrieval.resolve], rwset, by simp [Retrieval.store], ?_⟩
    rw [← sought.2]
    exact (of_decide_eq_true isHash).symm
  · exact .inr ⟨by simpa [Retrieval.store, Retrieval.resolve, mem_erase, same] using sought.1, sought.2⟩

theorem Sought.settle (agrees : key = k → p.computeSHA256 rwset = hash) :
    Held p k hash (p.settle s key rwset) ∨ Sought k hash (p.settle s key rwset) := by
  unfold PvtdataProvider.settle
  split
  · exact .inr sought
  · split
    · exact sought.store ‹_›
    · rename_i mismatch
      have other : key ≠ k := by
        intro same
        subst same
        exact mismatch (by simp [PvtdataProvider.hasExpectedHash, sought.2, agrees rfl])
      right
      unfold Retrieval.reconcileLater
      split
      · exact sought
      · exact ⟨by simpa [Retrieval.resolve, mem_erase, other] using sought.1, sought.2⟩

theorem Sought.settleFromTransientStore (found : Bytes × CollectionPvtReadWriteSet) :
    Held p k hash (p.settleFromTransientStore key s found) ∨ Sought k hash (p.settleFromTransientStore key s found) := by
  rw [PvtdataProvider.settleFromTransientStore]
  split
  · exact .inr sought
  · split
    · exact .inr sought
    · exact sought.store (not_not.mp ‹_›)

theorem Sought.found (isHash : p.computeSHA256 rwset = hash) :
    Held p k hash (p.settleFromTransientStore k s (k.ns, ⟨k.collection, rwset⟩)) := by
  have missing : s.isMissing k := isMissing_iff.mpr sought.1
  have expected : p.hasExpectedHash s k rwset := by simp [PvtdataProvider.hasExpectedHash, sought.2, isHash]
  rw [PvtdataProvider.settleFromTransientStore, if_neg (not_not.mpr missing), if_neg (not_not.mpr expected)]
  rcases sought.store expected with held | still
  · exact held
  · exact absurd still.1 (by simp [Retrieval.store, Retrieval.resolve])

end

def Safe (p : PvtdataProvider Config) (k : RwSetKey) (hash : Bytes) (s : Retrieval) : Prop := Held p k hash s ∨ Sought k hash s

theorem Safe.settle (safe : Safe p k hash s) (agrees : key = k → p.computeSHA256 rwset = hash) : Safe p k hash (p.settle s key rwset) :=
  safe.elim (fun held => .inl held.settle) fun sought => sought.settle agrees

theorem Safe.settleFromTransientStore (safe : Safe p k hash s) (found : Bytes × CollectionPvtReadWriteSet) :
    Safe p k hash (p.settleFromTransientStore key s found) :=
  safe.elim (fun held => .inl (held.settleFromTransientStore found)) fun sought => sought.settleFromTransientStore found

theorem Safe.foldl (safe : Safe p k hash s) (collections : List (Bytes × CollectionPvtReadWriteSet)) :
    Safe p k hash (collections.foldl (p.settleFromTransientStore key) s) :=
  foldlRecOn _ _ safe fun _ safe found _ => safe.settleFromTransientStore found

theorem Held.foldl (held : Held p k hash s) (collections : List (Bytes × CollectionPvtReadWriteSet)) :
    Held p k hash (collections.foldl (p.settleFromTransientStore key) s) :=
  foldlRecOn _ _ held fun _ held found _ => held.settleFromTransientStore found

theorem Safe.foldl_found (safe : Safe p k hash s) (isHash : p.computeSHA256 rwset = hash)
    {collections : List (Bytes × CollectionPvtReadWriteSet)} (mem : (k.ns, ⟨k.collection, rwset⟩) ∈ collections) :
    Held p k hash (collections.foldl (p.settleFromTransientStore k) s) := by
  obtain ⟨before, after, rfl⟩ := append_of_mem mem
  rw [foldl_append, foldl_cons]
  apply Held.foldl
  rcases safe.foldl before with held | sought
  · exact held.settleFromTransientStore _
  · exact sought.found isHash

variable (transientStore : RwSetKey → Result (List (Result (Option TxPvtReadWriteSet))))

def Readable : Prop :=
  ∀ k, ∃ entries : List (Option TxPvtReadWriteSet), transientStore k = .ok (entries.map .ok)

def Holds (k : RwSetKey) (rwset : Bytes) : Prop :=
  ∃ entries pvtRwset, transientStore k = .ok entries ∧ .ok (some pvtRwset) ∈ entries ∧
    (k.ns, ⟨k.collection, rwset⟩) ∈ collections pvtRwset

theorem scanTransientStore_readable (entries : List (Option TxPvtReadWriteSet)) (s : Retrieval) :
    (p.scanTransientStore k (entries.map .ok) s).2 = true := by
  induction entries generalizing s with
  | nil => rfl
  | cons entry entries ih => cases entry <;> exact ih _

theorem Safe.scan_found (safe : Safe p k hash s) (isHash : p.computeSHA256 rwset = hash)
    {entries : List (Option TxPvtReadWriteSet)} {pvtRwset : TxPvtReadWriteSet} (isEntry : some pvtRwset ∈ entries)
    (mem : (k.ns, ⟨k.collection, rwset⟩) ∈ collections pvtRwset) : Held p k hash (p.scanTransientStore k (entries.map .ok) s).1 := by
  induction entries generalizing s with
  | nil => cases isEntry
  | cons entry entries ih =>
    cases entry with
    | none => exact ih safe (by simpa using isEntry)
    | some other =>
      rcases mem_cons.mp isEntry with here | there
      · cases here
        exact scanTransientStore_invariant (fun _ found held => held.settleFromTransientStore found) (entries.map .ok)
          (safe.foldl_found isHash mem)
      · exact ih (safe.foldl _) there

theorem Safe.populate_found {transientStore : RwSetKey → Result (List (Result (Option TxPvtReadWriteSet)))}
    (readable : Readable transientStore) (holds : Holds transientStore k rwset) (isHash : p.computeSHA256 rwset = hash)
    {order : List RwSetKey} (visited : k ∈ order) (safe : Safe p k hash s) :
    Held p k hash (p.populateFromTransientStore transientStore order s) := by
  have kept {s : Retrieval} (held : Held p k hash s) (order : List RwSetKey) :
      Held p k hash (p.populateFromTransientStore transientStore order s) :=
    populateFromTransientStore_invariant (fun _ _ found held => held.settleFromTransientStore found) transientStore order held
  induction order generalizing s with
  | nil => cases visited
  | cons key order ih =>
    by_cases missing : s.isMissing key
    · obtain ⟨entries, isStore⟩ := readable key
      have ended : (p.scanTransientStore key (entries.map .ok) s).2 = true := scanTransientStore_readable entries s
      have result : p.populateFromTransientStore transientStore (key :: order) s =
          p.populateFromTransientStore transientStore order (p.scanTransientStore key (entries.map .ok) s).1 := by
        rw [PvtdataProvider.populateFromTransientStore, if_neg (not_not.mpr missing), isStore]
        cases scanned : p.scanTransientStore key (entries.map .ok) s with
        | mk s' isEnd =>
          rw [scanned] at ended
          cases ended
          simp only [scanned]
      rw [result]
      rcases mem_cons.mp visited with rfl | later
      · obtain ⟨entries', pvtRwset, isStore', isEntry, mem⟩ := holds
        obtain rfl := ok.inj (isStore.symm.trans isStore')
        exact kept (safe.scan_found isHash (by simpa using isEntry) mem) order
      · exact ih later (scanTransientStore_invariant (fun _ found safe => safe.settleFromTransientStore found) _ safe)
    · rw [PvtdataProvider.populateFromTransientStore, if_pos missing]
      rcases mem_cons.mp visited with rfl | later
      · exact kept (safe.resolve_right fun sought => missing (isMissing_iff.mpr sought.1)) order
      · exact ih later safe

def Undisputed (p : PvtdataProvider Config) (txs : List (TxPvtdataInfo Config)) (prefetchedPvtdata : List TxPvtData)
    (k : RwSetKey) (hash : Bytes) : Prop :=
  ∀ txPvtdata ∈ prefetchedPvtdata, txPvtdata.seqInBlock = k.seqInBlock →
    getTxIDBySeqInBlock txPvtdata.seqInBlock txs = k.txID → ∀ rwset,
    (k.ns, ⟨k.collection, rwset⟩) ∈ collections txPvtdata.writeSet → p.computeSHA256 rwset = hash

theorem Safe.populateFromCache {txs : List (TxPvtdataInfo Config)} {prefetchedPvtdata : List TxPvtData}
    (undisputed : Undisputed p txs prefetchedPvtdata k hash) (safe : Safe p k hash s) :
    Safe p k hash (p.populateFromCache txs prefetchedPvtdata s) := by
  apply foldlRecOn _ _ safe
  intro s safe txPvtdata isTx
  rw [PvtdataProvider.populateFromCacheTx]
  split
  · exact safe
  · apply foldlRecOn _ _ safe
    intro s safe found mem
    apply safe.settle
    intro same
    subst same
    exact undisputed txPvtdata isTx rfl rfl found.2.rwset mem

theorem Held.mem_found (held : Held p k hash s) : ∃ rwset ∈ found (prepareBlockPvtdata s) k.seqInBlock k.ns k.collection,
    p.computeSHA256 rwset = hash := by
  obtain ⟨_, rwset, isStored, isHash⟩ := held
  refine ⟨rwset, ?_, isHash⟩
  rw [found_prepareBlockPvtdata]
  refine mem_map.mpr ⟨(k, rwset), mem_filter.mpr ⟨?_, by simp⟩, rfl⟩
  exact mem_toList_iff_getElem?_eq_some.mpr isStored

theorem localPvtdata_kept (p : PvtdataProvider Config) (srcs : Sources) (txs : List (TxPvtdataInfo Config)) (r : BlockPvtdata)
    (got : p.retrievePvtdata srcs txs = .ok r) (readable : Readable srcs.transientStore)
    (visited : ∀ k ∈ (eligibleHashes (listings p txs)).map Prod.fst, k ∈ srcs.order) (k : RwSetKey) (hash rwset : Bytes)
    (listed : lastFor k (eligibleHashes (listings p txs)) = some hash) (holds : Holds srcs.transientStore k rwset)
    (isHash : p.computeSHA256 rwset = hash) (undisputed : Undisputed p txs srcs.prefetchedPvtdata k hash) :
    ∃ rwset' ∈ found r k.seqInBlock k.ns k.collection, p.computeSHA256 rwset' = hash := by
  obtain ⟨info, isInfo, got⟩ := bind_eq_ok.mp got
  have computed := computed_of_computeEligibility isInfo
  have mem := mem_of_lastFor listed
  have start : Safe p k hash ⟨∅, info⟩ := by
    obtain ⟨e, isListing, same⟩ := mem_map.mp mem
    obtain ⟨isListing, eligible⟩ := mem_filter.mp isListing
    refine .inr ⟨(computed.remaining k).mpr ⟨e, isListing, congrArg Prod.fst same, eligible⟩, ?_⟩
    rw [getD_eq_getD_getElem?, computed.expected, listed, Option.getD_some]
  have settled {s : Retrieval} (empty : s.info.remainingEligibleMissingKeys.isEmpty = true) (safe : Safe p k hash s) : Held p k hash s := by
    refine safe.resolve_right fun sought => ?_
    exact not_mem_empty (isEmpty_iff.mp empty ▸ sought.1)
  have cached := start.populateFromCache undisputed
  have scanned := cached.populate_found readable holds isHash (visited k (mem_map_of_mem mem))
  have pulled : Held p k hash (p.pull srcs.answers _) :=
    pull_invariant (fun _ _ _ held => held.settle) (fun _ _ _ _ _ held => held.resolve) scanned
  simp only at got
  split at got
  · exact ok.inj got ▸ (settled ‹_› start).mem_found
  · split at got
    · exact ok.inj got ▸ (settled ‹_› cached).mem_found
    · split at got
      · exact ok.inj got ▸ scanned.mem_found
      · exact ok.inj got ▸ pulled.mem_found

def listedTx (others : List (CollectionPvtdataInfo Unit)) : TxPvtdataInfo Unit :=
  ⟨[4], false, 0, ⟨[8], [7], [2], (), []⟩ :: others⟩

def storedLocally (prefetchedPvtdata : List TxPvtData) (answers : List (Result FetchedPvtDataContainer)) : Sources :=
  ⟨prefetchedPvtdata, [[5], [6], [7]].map fun coll => ⟨[4], 0, [8], coll⟩,
    fun _ => .ok [.ok (some [⟨[8], [⟨[7], [2]⟩]⟩])], answers⟩

-- The block brings the write-set of one collection, a peer that of another, and a wrong one for this.
theorem localWriteSet_kept :
    let srcs := storedLocally [⟨0, [⟨[8], [⟨[6], [1]⟩]⟩]⟩] [.ok ⟨[⟨⟨[4], [8], [7], 5, 0⟩, [[1]]⟩, ⟨⟨[4], [8], [5], 5, 0⟩, [[3]]⟩], []⟩]
    ∃ r, TwoHashes.provider.retrievePvtdata srcs [listedTx [⟨[8], [6], [1], (), []⟩, ⟨[8], [5], [3], (), []⟩]] = .ok r ∧
      found r 0 [8] [6] = [[1]] ∧ found r 0 [8] [5] = [[3]] ∧
      ∃ rwset' ∈ found r 0 [8] [7], TwoHashes.provider.computeSHA256 rwset' = [2] := by
  intro srcs
  have run : (provider.retrievePvtdata srcs [listedTx [⟨[8], [6], [1], (), []⟩, ⟨[8], [5], [3], (), []⟩]]).toOption.any (fun r =>
    decide (found r 0 [8] [6] = [[1]] ∧ found r 0 [8] [5] = [[3]])) = true := by decide +kernel
  obtain ⟨r, got, others⟩ := (Option.any_eq_true ..).mp run
  have got := toOption_eq_some.mp got
  obtain ⟨prefetched, fetched⟩ := of_decide_eq_true others
  exact ⟨r, got, prefetched, fetched, localPvtdata_kept provider srcs _ r got
    (fun _ => ⟨[some [⟨[8], [⟨[7], [2]⟩]⟩]], rfl⟩) (by decide +kernel) ⟨[4], 0, [8], [7]⟩ [2] [2] (by decide +kernel)
    ⟨_, _, rfl, mem_singleton.mpr rfl, by decide⟩ rfl (by simp [Undisputed, srcs, storedLocally, collections])⟩

-- The write-set that came with the block has another hash, and the transient store is not consulted.
theorem prefetched_displaces : ∃ r,
    TwoHashes.provider.retrievePvtdata (storedLocally [⟨0, [⟨[8], [⟨[7], [1]⟩]⟩]⟩] []) [listedTx []] = .ok r ∧ found r 0 [8] [7] = [] := by
  have run : (provider.retrievePvtdata (storedLocally [⟨0, [⟨[8], [⟨[7], [1]⟩]⟩]⟩] []) [listedTx []]).toOption.any
      (fun r => decide (found r 0 [8] [7] = [])) = true := by decide +kernel
  obtain ⟨r, got, isFound⟩ := (Option.any_eq_true ..).mp run
  exact ⟨r, toOption_eq_some.mp got, of_decide_eq_true isFound⟩

end Fabric.Proof.Privdata
