import Fabric.Ledger.TxMgr.LockBasedTxMgr

/-! # The input of the commit hash -/

namespace Fabric.Proof.TxMgr

open Lib Fabric.Ledger Fabric.Ledger.TxMgr
open List hiding ext_getElem? getElem?_insert mem_keys

variable {ns coll key : Bytes} {vv : VersionedValue} {u : PrivacyUpdateBatch}

def sortedKVs (listed : List VersionedKV) : List UpdateKVWrite :=
  (listed.mergeSort fun a b => (compare a.1 b.1).isLE).map genKV

def bytesOfListing (codec : Codec) (pub : List (CompositeKey × VersionedValue)) (hash : List (CollKey × VersionedValue)) :
    Bytes :=
  let namespaces := dedupAndSort (pub.map (·.1.ns) ++ hash.map (·.1.ns))
  codec.marshalUpdates ((namespaces.filter (!·.isEmpty)).flatMap fun ns =>
    nameFirst ({ · with nameSpace := ns })
      (sortedKVs (pub.filterMap fun e => if e.1.ns = ns then some (e.1.key, e.2) else none) ++
        (dedupAndSort ((hash.filter (·.1.ns = ns)).map (·.1.coll))).flatMap fun coll =>
          nameFirst ({ · with collection := coll })
            (sortedKVs (hash.filterMap fun e =>
              if e.1.ns = ns ∧ e.1.coll = coll then some (e.1.key, e.2) else none))))

theorem mem_dedupAndSort {names : List Bytes} {name : Bytes} : name ∈ dedupAndSort names ↔ name ∈ names := by
  suffices listed : ∀ m : Map Bytes Unit, name ∈ names.foldl (fun m name => m.insert name ()) m ↔ name ∈ names ∨ name ∈ m by
    simp [dedupAndSort, listed]
  induction names with
  | nil => simp
  | cons first names ih =>
    intro m
    simp only [foldl_cons, ih, mem_insert, Std.compare_eq_iff_eq, mem_cons]
    tauto

theorem dedupAndSort_perm {names names' : List Bytes} (perm : names.Perm names') : dedupAndSort names = dedupAndSort names' := by
  unfold dedupAndSort
  rw [perm.foldl_eq' fun a _ b _ m => ?_]
  apply ext_getElem?
  intro k
  simp only [getElem?_insert]
  split <;> split <;> rfl

theorem sortedKVs_eq {listed entries : List VersionedKV} (sorted : KeySorted entries) (perm : listed.Perm entries) :
    sortedKVs listed = entries.map genKV := by
  have trans (a b c : VersionedKV) (ab : (compare a.1 b.1).isLE) (bc : (compare b.1 c.1).isLE) : (compare a.1 c.1).isLE :=
    Std.TransCmp.isLE_trans ab bc
  have total (a b : VersionedKV) : ((compare a.1 b.1).isLE || (compare b.1 a.1).isLE) = true := by
    have flipped : compare b.1 a.1 = (compare a.1 b.1).swap := Std.OrientedCmp.eq_swap
    rw [flipped]
    cases compare a.1 b.1 <;> rfl
  have increasing := pairwise_mergeSort trans total listed
  have same : (listed.mergeSort fun a b => (compare a.1 b.1).isLE).Perm entries := (mergeSort_perm _ _).trans perm
  rw [sortedKVs]
  congr 1
  apply same.eq_of_pairwise _ increasing (sorted.imp fun less => by simp [less])
  intro a b first second ab ba
  have sameKey : compare a.1 b.1 = .eq := by
    have flipped : compare b.1 a.1 = (compare a.1 b.1).swap := Std.OrientedCmp.eq_swap
    rw [flipped] at ba
    cases order : compare a.1 b.1 <;> simp_all
  have distinct : (entries.map (·.1)).Nodup := by
    rw [List.Nodup, pairwise_map]
    exact sorted.imp fun less same => by simp [same] at less
  exact inj_on_of_nodup_map distinct (same.subset first) second (Std.compare_eq_iff_eq.mp sameKey)

theorem collEntries_sorted (entries : Updates CollKey) (ns coll : Bytes) : KeySorted (collEntries entries ns coll) := by
  refine List.Pairwise.filterMap _ ?_ (KeySorted.toList entries)
  intro ⟨⟨ns1, coll1, key1⟩, vv1⟩ ⟨⟨ns2, coll2, key2⟩, vv2⟩ less a left b right
  simp only [Option.ite_none_right_eq_some, Option.some.injEq] at left right
  obtain ⟨⟨rfl, rfl⟩, rfl⟩ := left
  obtain ⟨⟨rfl, rfl⟩, rfl⟩ := right
  change List.compareLex compare [ns2, coll2, key1] [ns2, coll2, key2] = .lt at less
  simpa [List.compareLex_cons_cons, Std.ReflCmp.compare_self] using less

theorem mem_collEntries {entries : Updates CollKey} :
    (key, vv) ∈ collEntries entries ns coll ↔ entries[(⟨ns, coll, key⟩ : CollKey)]? = some vv := by
  rw [← mem_toList_iff_getElem?_eq_some, collEntries, mem_filterMap]
  constructor
  · intro ⟨⟨⟨ns1, coll1, key1⟩, vv1⟩, mem, taken⟩
    by_cases same : ns1 = ns ∧ coll1 = coll <;> simp_all
  · intro mem
    exact ⟨_, mem, by simp⟩

theorem bytesOfListing_eq (codec : Codec) (u : PrivacyUpdateBatch) {pub : List (CompositeKey × VersionedValue)}
    {hash : List (CollKey × VersionedValue)} (pubPerm : pub.Perm u.pubUpdates.updates.toList)
    (hashPerm : hash.Perm u.hashUpdates.toList) : bytesOfListing codec pub hash = deterministicBytesForPubAndHashUpdates codec u := by
  have namespaces : dedupAndSort (pub.map (·.1.ns) ++ hash.map (·.1.ns)) =
      dedupAndSort (u.pubUpdates.updates.keys.map (·.ns) ++ u.hashUpdates.keys.map (·.ns)) := by
    apply dedupAndSort_perm
    simp only [← Std.ExtTreeMap.map_fst_toList_eq_keys, map_map]
    exact (pubPerm.map _).append (hashPerm.map _)
  have colls (ns : Bytes) : dedupAndSort ((hash.filter (·.1.ns = ns)).map (·.1.coll)) =
      dedupAndSort ((u.hashUpdates.keys.filter (·.ns = ns)).map (·.coll)) := by
    apply dedupAndSort_perm
    rw [← Std.ExtTreeMap.map_fst_toList_eq_keys, filter_map, map_map]
    exact (hashPerm.filter _).map _
  unfold bytesOfListing deterministicBytesForPubAndHashUpdates genKVsFromCollsUpdates
  simp [namespaces, colls, sortedKVs_eq (nsEntries_sorted _ _) (pubPerm.filterMap _),
    sortedKVs_eq (collEntries_sorted _ _ _) (hashPerm.filterMap _)]

def named (ns coll : Bytes) (kv : VersionedKV) : UpdateKVWrite :=
  { genKV kv with nameSpace := ns, collection := coll }

/-- Every write takes the names it lacks from the write before it; a namespace begins outside its collections. -/
def readNames : Bytes → Bytes → List UpdateKVWrite → List UpdateKVWrite
  | _, _, [] => []
  | ns, coll, kv :: kvs =>
    let ns' := if kv.nameSpace = [] then ns else kv.nameSpace
    let coll' := if kv.collection ≠ [] then kv.collection else if kv.nameSpace = [] then coll else []
    { kv with nameSpace := ns', collection := coll' } :: readNames ns' coll' kvs

theorem readNames_unnamed (ns coll : Bytes) (kvs : List VersionedKV) (rest : List UpdateKVWrite) :
    readNames ns coll (kvs.map genKV ++ rest) = kvs.map (named ns coll) ++ readNames ns coll rest := by
  induction kvs with
  | nil => rfl
  | cons kv kvs ih => simpa [readNames, genKV, named] using ih

theorem readNames_coll (ns a : Bytes) (ne : coll ≠ []) (kv : VersionedKV) (kvs : List VersionedKV) (rest : List UpdateKVWrite) :
    readNames ns a (nameFirst ({ · with collection := coll }) ((kv :: kvs).map genKV) ++ rest) =
      (kv :: kvs).map (named ns coll) ++ readNames ns coll rest := by
  simp only [map_cons, nameFirst, cons_append, readNames, genKV, if_true, ne, ne_eq, not_false_iff]
  rw [readNames_unnamed]
  rfl

theorem readNames_colls (ns : Bytes) (entries : Bytes → List VersionedKV) {colls : List Bytes} (coll : Bytes)
    (rest : List UpdateKVWrite) (ne : ∀ coll ∈ colls, coll ≠ []) : ∃ last, readNames ns coll
        (colls.flatMap (fun coll => nameFirst ({ · with collection := coll }) ((entries coll).map genKV)) ++ rest) =
      colls.flatMap (fun coll => (entries coll).map (named ns coll)) ++ readNames ns last rest := by
  induction colls generalizing coll with
  | nil => exact ⟨coll, rfl⟩
  | cons first colls ih =>
    have firstNonempty := ne first mem_cons_self
    have later : ∀ coll ∈ colls, coll ≠ [] := fun coll mem => ne coll (mem_cons_of_mem _ mem)
    simp only [flatMap_cons, append_assoc]
    cases writes : entries first with
    | nil => exact ih coll later
    | cons kv kvs =>
      obtain ⟨last, read⟩ := ih first later
      exact ⟨last, by rw [readNames_coll ns coll firstNonempty, read]⟩

theorem readNames_length (ns coll : Bytes) (kvs : List UpdateKVWrite) : (readNames ns coll kvs).length = kvs.length := by
  induction kvs generalizing ns coll with
  | nil => rfl
  | cons kv kvs ih => simp [readNames, ih]

theorem genKVsFromCollsUpdates_unnamed (hashUpdates : Updates CollKey) (ns : Bytes) :
    ∀ kv ∈ genKVsFromCollsUpdates hashUpdates ns, kv.nameSpace = [] := by
  intro kv mem
  obtain ⟨coll, -, mem⟩ := mem_flatMap.mp mem
  cases entries : collEntries hashUpdates ns coll with
  | nil => simp [entries, nameFirst] at mem
  | cons first entries =>
    simp only [entries, map_cons, nameFirst, mem_cons, mem_map] at mem
    obtain rfl | ⟨e, -, rfl⟩ := mem <;> rfl

def namespaceKVs (u : PrivacyUpdateBatch) (ns : Bytes) : List UpdateKVWrite :=
  (nsEntries u.pubUpdates.updates ns).map (named ns []) ++
    (dedupAndSort ((u.hashUpdates.keys.filter (·.ns = ns)).map (·.coll))).flatMap fun coll =>
      (collEntries u.hashUpdates ns coll).map (named ns coll)

def NamedCollections (u : PrivacyUpdateBatch) : Prop :=
  ∀ k ∈ u.hashUpdates, k.ns ≠ [] → k.coll ≠ []

theorem readNames_block (namedColls : NamedCollections u) (ne : ns ≠ []) (a b : Bytes) (rest : List UpdateKVWrite) :
    ∃ c d, readNames a b (nameFirst ({ · with nameSpace := ns })
        ((nsEntries u.pubUpdates.updates ns).map genKV ++ genKVsFromCollsUpdates u.hashUpdates ns) ++ rest) =
      namespaceKVs u ns ++ readNames c d rest := by
  have collsNonempty : ∀ coll ∈ dedupAndSort ((u.hashUpdates.keys.filter (·.ns = ns)).map (·.coll)), coll ≠ [] := by
    simp only [mem_dedupAndSort, mem_map, mem_filter, mem_keys, decide_eq_true_eq]
    intro coll ⟨k, ⟨updated, inNs⟩, isColl⟩
    exact isColl ▸ namedColls k updated (inNs ▸ ne)
  obtain ⟨last, read⟩ := readNames_colls ns (collEntries u.hashUpdates ns) [] rest collsNonempty
  have content : readNames ns [] ((nsEntries u.pubUpdates.updates ns).map genKV ++
      genKVsFromCollsUpdates u.hashUpdates ns ++ rest) = namespaceKVs u ns ++ readNames ns last rest := by
    rw [append_assoc, readNames_unnamed, genKVsFromCollsUpdates, read, namespaceKVs, append_assoc]
  have unnamed : ∀ kv ∈ (nsEntries u.pubUpdates.updates ns).map genKV ++ genKVsFromCollsUpdates u.hashUpdates ns, kv.nameSpace = [] := by
    intro kv mem
    rcases mem_append.mp mem with mem | mem
    · obtain ⟨e, -, rfl⟩ := mem_map.mp mem
      rfl
    · exact genKVsFromCollsUpdates_unnamed _ _ kv mem
  cases block : (nsEntries u.pubUpdates.updates ns).map genKV ++ genKVsFromCollsUpdates u.hashUpdates ns with
  | nil =>
    have none : namespaceKVs u ns = [] := by
      have lengths := congrArg List.length content
      simpa [block, readNames_length] using lengths
    exact ⟨a, b, by rw [none]; rfl⟩
  | cons kv kvs =>
    refine ⟨ns, last, ?_⟩
    rw [← content, block]
    simp [nameFirst, readNames, ne, unnamed kv (by simp [block])]

def namedKVs (u : PrivacyUpdateBatch) : List UpdateKVWrite :=
  ((dedupAndSort (u.pubUpdates.updates.keys.map (·.ns) ++ u.hashUpdates.keys.map (·.ns))).filter (!·.isEmpty)).flatMap
    (namespaceKVs u)

theorem namedKVs_eq_of_bytes {codec : Codec} (readable : Function.Injective codec.marshalUpdates)
    {u' : PrivacyUpdateBatch} (left : NamedCollections u) (right : NamedCollections u')
    (same : deterministicBytesForPubAndHashUpdates codec u = deterministicBytesForPubAndHashUpdates codec u') : namedKVs u = namedKVs u' := by
  have read (u : PrivacyUpdateBatch) (namedColls : NamedCollections u) (names : List Bytes) (a b : Bytes) :
      readNames a b ((names.filter (!·.isEmpty)).flatMap fun ns => nameFirst ({ · with nameSpace := ns })
        ((nsEntries u.pubUpdates.updates ns).map genKV ++ genKVsFromCollsUpdates u.hashUpdates ns)) =
      (names.filter (!·.isEmpty)).flatMap (namespaceKVs u) := by
    induction names generalizing a b with
    | nil => rfl
    | cons ns names ih =>
      by_cases ne : ns = []
      · simpa [ne] using ih a b
      · obtain ⟨c, d, block⟩ := readNames_block namedColls ne a b ((names.filter (!·.isEmpty)).flatMap fun ns =>
          nameFirst ({ · with nameSpace := ns })
            ((nsEntries u.pubUpdates.updates ns).map genKV ++ genKVsFromCollsUpdates u.hashUpdates ns))
        rw [filter_cons_of_pos (by simpa using ne), flatMap_cons, flatMap_cons, block, ih]
  rw [namedKVs, namedKVs, ← read u left _ [] [], ← read u' right _ [] []]
  exact congrArg (readNames [] []) (readable same)

def encodedPart (vv : VersionedValue) : Option Bytes × Bytes := (vv.value, toBytes vv.version)

theorem named_inj {ns' coll' key' : Bytes} {vv' : VersionedValue} : named ns coll (key, vv) = named ns' coll' (key', vv') ↔
      ns = ns' ∧ coll = coll' ∧ key = key' ∧ encodedPart vv = encodedPart vv' := by
  obtain ⟨_ | value, metadata, version⟩ := vv <;> obtain ⟨_ | value', metadata', version'⟩ := vv' <;>
    simp [named, genKV, encodedPart, VersionedValue.isDelete]

/-- The update of a key, which is public under the empty collection name. -/
def entryAt (u : PrivacyUpdateBatch) (ns coll key : Bytes) : Option VersionedValue :=
  if coll = [] then u.pubUpdates.updates[(⟨ns, key⟩ : CompositeKey)]? else u.hashUpdates[(⟨ns, coll, key⟩ : CollKey)]?

theorem mem_namedKVs (namedColls : NamedCollections u) (ne : ns ≠ []) (vv : VersionedValue) :
    named ns coll (key, vv) ∈ namedKVs u ↔ (entryAt u ns coll key).map encodedPart = some (encodedPart vv) := by
  rw [Option.map_eq_some_iff, entryAt]
  constructor
  · intro mem
    obtain ⟨ns', -, mem⟩ := mem_flatMap.mp mem
    rcases mem_append.mp mem with mem | mem
    · obtain ⟨⟨key', vv'⟩, entry, same⟩ := mem_map.mp mem
      obtain ⟨rfl, rfl, rfl, part⟩ := named_inj.mp same
      exact ⟨vv', mem_nsEntries.mp entry, part⟩
    · obtain ⟨coll', -, mem⟩ := mem_flatMap.mp mem
      obtain ⟨⟨key', vv'⟩, entry, same⟩ := mem_map.mp mem
      obtain ⟨rfl, rfl, rfl, part⟩ := named_inj.mp same
      have updated := mem_collEntries.mp entry
      have inColl := namedColls _ (mem_of_get updated) ne
      exact ⟨vv', by rw [if_neg inColl, updated], part⟩
  · rintro ⟨vv', updated, part⟩
    rw [named_inj.mpr ⟨rfl, rfl, rfl, part.symm⟩]
    refine mem_flatMap.mpr ⟨ns, ?_⟩
    split at updated
    case isTrue isPublic =>
      subst isPublic
      have listed := mem_keys.mpr (mem_of_get updated)
      refine ⟨?_, mem_append_left _ (mem_map_of_mem (mem_nsEntries.mpr updated))⟩
      simpa [mem_dedupAndSort, ne] using Or.inl ⟨⟨ns, key⟩, by simpa using listed, rfl⟩
    case isFalse =>
      have listed := mem_keys.mpr (mem_of_get updated)
      refine ⟨?_, mem_append_right _ (mem_flatMap.mpr ⟨coll, ?_, mem_map_of_mem (mem_collEntries.mpr updated)⟩)⟩
      · simpa [mem_dedupAndSort, ne] using Or.inr ⟨⟨ns, coll, key⟩, by simpa using listed, rfl⟩
      · simpa [mem_dedupAndSort] using ⟨⟨ns, coll, key⟩, ⟨by simpa using listed, rfl⟩, rfl⟩

/-- The versions are pairs of 64-bit numbers. -/
def SizedVersions (u : PrivacyUpdateBatch) : Prop :=
  ∀ ns coll key vv, entryAt u ns coll key = some vv → vv.version.blockNum < 2 ^ 64 ∧ vv.version.txNum < 2 ^ 64

def hashedPart (vv : VersionedValue) : Option Bytes × Height := (vv.value, vv.version)

theorem hashedPart_eq {u' : PrivacyUpdateBatch} (sized : SizedVersions u) (sized' : SizedVersions u')
    (same : (entryAt u ns coll key).map encodedPart = (entryAt u' ns coll key).map encodedPart) :
    (entryAt u ns coll key).map hashedPart = (entryAt u' ns coll key).map hashedPart := by
  cases found : entryAt u ns coll key with
  | none => simpa [found, eq_comm] using same
  | some vv =>
    rw [found, Option.map_some, eq_comm, Option.map_eq_some_iff] at same
    obtain ⟨vv', found', part⟩ := same
    obtain ⟨blockNum, txNum⟩ := sized _ _ _ _ found
    obtain ⟨blockNum', txNum'⟩ := sized' _ _ _ _ found'
    obtain ⟨value, version⟩ := Prod.mk.inj part
    obtain ⟨blocks, txs⟩ := Varint.encodeOrderPreserving_pair_inj blockNum' blockNum txNum' txNum version
    have heights : vv'.version = vv.version := by
      cases version : vv.version
      cases version' : vv'.version
      simp_all
    simp [found', hashedPart, value, heights]

/-- The same keys are updated, in every named namespace and collection, with the same values and versions. -/
structure SameWrites (u u' : PrivacyUpdateBatch) : Prop where
  pub : ∀ ns key, ns ≠ [] → u.pubUpdates.updates[(⟨ns, key⟩ : CompositeKey)]?.map hashedPart =
    u'.pubUpdates.updates[(⟨ns, key⟩ : CompositeKey)]?.map hashedPart
  hash : ∀ ns coll key, ns ≠ [] → coll ≠ [] → u.hashUpdates[(⟨ns, coll, key⟩ : CollKey)]?.map hashedPart =
    u'.hashUpdates[(⟨ns, coll, key⟩ : CollKey)]?.map hashedPart

theorem updateBytes_faithful (codec : Codec) (readable : Function.Injective codec.marshalUpdates) :
    (∀ u pub hash, pub.Perm u.pubUpdates.updates.toList → hash.Perm u.hashUpdates.toList →
      bytesOfListing codec pub hash = deterministicBytesForPubAndHashUpdates codec u) ∧
    ∀ u u', NamedCollections u → NamedCollections u' → SizedVersions u → SizedVersions u' →
      deterministicBytesForPubAndHashUpdates codec u = deterministicBytesForPubAndHashUpdates codec u' → SameWrites u u' := by
  constructor
  · intro u pub hash pubPerm hashPerm
    exact bytesOfListing_eq codec u pubPerm hashPerm
  · intro u u' left right sized sized' same
    have writes := namedKVs_eq_of_bytes readable left right same
    have entries (ns coll key : Bytes) (ne : ns ≠ []) :
        (entryAt u ns coll key).map hashedPart = (entryAt u' ns coll key).map hashedPart := by
      have members (vv : VersionedValue) : (entryAt u ns coll key).map encodedPart = some (encodedPart vv) ↔ _ :=
        (mem_namedKVs left ne vv).symm.trans (writes ▸ mem_namedKVs right ne vv)
      refine hashedPart_eq sized sized' ?_
      cases found : entryAt u ns coll key with
      | some vv => exact ((members vv).mp (by rw [found]; rfl)).symm
      | none =>
        cases found' : entryAt u' ns coll key with
        | none => rfl
        | some vv => simpa [found] using (members vv).mpr (by rw [found']; rfl)
    exact ⟨fun ns key => entries ns [] key, fun ns coll key ne inColl => by simpa [entryAt, inColl] using entries ns coll key ne⟩

section

open PrefixCode

def readableCodec : Codec :=
  { Codec.plain with
    marshalUpdates := encodeList (encodeVia
      (fun w => (w.nameSpace, w.collection, w.key, w.isDelete, w.value, w.versionBytes))
      (encodePair encodeBytes (encodePair encodeBytes (encodePair encodeBytes (encodePair encodeBool
        (encodePair encodeBytes encodeBytes)))))) }

theorem readableCodec_injective : Function.Injective readableCodec.marshalUpdates := by
  apply PrefixFree.injective
  apply prefixFree_list
  apply prefixFree_via
  · exact prefixFree_pair prefixFree_bytes (prefixFree_pair prefixFree_bytes (prefixFree_pair prefixFree_bytes
      (prefixFree_pair prefixFree_bool (prefixFree_pair prefixFree_bytes prefixFree_bytes))))
  · intro ⟨ns, coll, key, isDelete, value, version⟩ ⟨ns', coll', key', isDelete', value', version'⟩ same
    simpa using same

end

def oneUpdateEach (metadata : Option Bytes) (coll : Bytes) : PrivacyUpdateBatch where
  pubUpdates := ⟨false, (∅ : Updates CompositeKey).insert ⟨[1], [1]⟩ ⟨some [5], metadata, ⟨3, 0⟩⟩⟩
  hashUpdates := (∅ : Updates CollKey).insert ⟨[1], coll, [2]⟩ ⟨some [6], none, ⟨3, 1⟩⟩
  pvtUpdates := ∅

def twoPublicUpdates : PrivacyUpdateBatch where
  pubUpdates := ⟨false, ((∅ : Updates CompositeKey).insert ⟨[1], [1]⟩ ⟨some [5], none, ⟨3, 0⟩⟩).insert ⟨[1], [2]⟩
    ⟨some [6], none, ⟨3, 1⟩⟩⟩
  hashUpdates := ∅
  pvtUpdates := ∅

theorem differentMetadata_sameWrites :
    bytesOfListing readableCodec (oneUpdateEach none [7]).pubUpdates.updates.toList.reverse
      (oneUpdateEach none [7]).hashUpdates.toList =
        deterministicBytesForPubAndHashUpdates readableCodec (oneUpdateEach none [7]) ∧
    SameWrites (oneUpdateEach none [7]) (oneUpdateEach (some [9]) [7]) := by
  have namedColls (metadata : Option Bytes) : NamedCollections (oneUpdateEach metadata [7]) := by
    intro k mem _
    simp only [oneUpdateEach, mem_insert, Std.compare_eq_iff_eq, Std.ExtTreeMap.not_mem_empty, or_false] at mem
    simp [← mem]
  have sized (metadata : Option Bytes) : SizedVersions (oneUpdateEach metadata [7]) := by
    intro ns coll key vv found
    simp only [entryAt, oneUpdateEach, getElem?_insert, Std.ExtTreeMap.getElem?_empty] at found
    split_ifs at found <;> cases found <;> simp
  obtain ⟨ordered, toldApart⟩ := updateBytes_faithful readableCodec readableCodec_injective
  exact ⟨ordered _ _ _ (reverse_perm _) (List.Perm.refl _), toldApart _ _ (namedColls _) (namedColls _) (sized _) (sized _) (by decide +kernel)⟩

-- The second pair shows a hashed update of the empty collection passing for a public one.
theorem metadata_not_hashed : (deterministicBytesForPubAndHashUpdates readableCodec (oneUpdateEach none [7]) =
        deterministicBytesForPubAndHashUpdates readableCodec (oneUpdateEach (some [9]) [7]) ∧
      (oneUpdateEach none [7]).pubUpdates.updates[(⟨[1], [1]⟩ : CompositeKey)]?.map (·.metadata) = some none ∧
      (oneUpdateEach (some [9]) [7]).pubUpdates.updates[(⟨[1], [1]⟩ : CompositeKey)]?.map (·.metadata) = some (some [9])) ∧
    deterministicBytesForPubAndHashUpdates readableCodec (oneUpdateEach none []) =
        deterministicBytesForPubAndHashUpdates readableCodec twoPublicUpdates ∧
      (oneUpdateEach none []).pubUpdates.updates[(⟨[1], [2]⟩ : CompositeKey)]? = none ∧
      twoPublicUpdates.pubUpdates.updates[(⟨[1], [2]⟩ : CompositeKey)]? = some ⟨some [6], none, ⟨3, 1⟩⟩ := by
  decide +kernel

end Fabric.Proof.TxMgr
