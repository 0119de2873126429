import Fabric.Cluster.VerifyBlocks
import Fabric.Lib.PrefixCode

/-! # Verified buffers are authentic -/

namespace Fabric.Proof.Cluster

open Lib Lib.PrefixCode Fabric.Cluster List Option

variable {Config : Type} {p : Protoutil Config} {v : BlockVerifier Config} {config : Option Config} {block : Block}
  {blocks before after : List Block} {previous : Option Block}

def configInForce (p : Protoutil Config) (config : Option Config) (blocks : List Block) : Option Config :=
  blocks.foldl (fun config block => ((configFromBlock p block).toOption.join).or config) config

def IsConfigBlock (p : Protoutil Config) (block : Block) : Prop := ∃ config, configFromBlock p block = .ok (some config)

def SatisfiesPolicy (p : Protoutil Config) (v : BlockVerifier Config) (config : Option Config) (block : Block) : Prop :=
  ∃ signatureSet policy, signatureSetFromBlock p block = .ok signatureSet ∧ v.policyOf config = .ok (some policy) ∧
    policy signatureSet = .ok ()

theorem satisfies_of_verified (verified : verifyBlockSignature p v config block = .ok ()) : SatisfiesPolicy p v config block := by
  obtain ⟨signatureSet, signed, rest⟩ := bind_eq_ok.mp verified
  obtain ⟨policy, found, rest⟩ := bind_eq_ok.mp rest
  cases policy with
  | none => cases rest
  | some policy => exact ⟨signatureSet, policy, signed, found, rest⟩

theorem signed_of_verifyConfigs (verified : verifyConfigs p v config blocks = .ok ())
    (split : blocks = before ++ block :: after) (checked : IsConfigBlock p block ∨ after = []) :
    SatisfiesPolicy p v (configInForce p config before) block := by
  induction before generalizing blocks config with
  | nil =>
    subst split
    obtain ⟨own, isOwn, rest⟩ := bind_eq_ok.mp verified
    cases own with
    | some own =>
      obtain ⟨_, signed, _⟩ := bind_eq_ok.mp rest
      exact satisfies_of_verified signed
    | none =>
      rcases checked with ⟨other, isOther⟩ | rfl
      · rw [isOwn] at isOther
        cases isOther
      · exact satisfies_of_verified rest
  | cons first before ih =>
    subst split
    obtain ⟨own, isOwn, rest⟩ := bind_eq_ok.mp verified
    have inForce : configInForce p config (first :: before) = configInForce p (own.or config) before := by
      simp [configInForce, isOwn, Except.toOption]
    rw [inForce]
    cases own with
    | some own =>
      obtain ⟨_, _, later⟩ := bind_eq_ok.mp rest
      exact ih later rfl
    | none =>
      have notLast : (before ++ block :: after).isEmpty = false := by simp
      simp only [append_eq, notLast, Bool.false_eq_true, if_false] at rest
      exact ih rest rfl

def Hashed (p : Protoutil Config) (block : Block) : Prop :=
  ∃ header data, block.header = some header ∧ block.data = some data ∧ header.dataHash = p.sha256 data.flatten

def Linked (p : Protoutil Config) (previous block : Block) : Prop :=
  ∀ header, block.header = some header →
    ∃ last, previous.header = some last ∧ header.previousHash = p.sha256 (p.asn1Marshal last)

theorem hashed_of_verifyBlockHash (verified : verifyBlockHash p previous block = .ok ()) :
    Hashed p block ∧ ∀ b ∈ previous, Linked p b block := by
  unfold verifyBlockHash at verified
  split at verified
  · cases verified
  · rename_i header isHeader
    split at verified
    · split at verified <;> cases verified
    · cases verified
    · rename_i data isData
      split at verified
      · cases verified
      · split at verified
        · cases verified
        · rename_i same
          refine ⟨⟨header, data, isHeader, isData, (of_not_not same).symm⟩, ?_⟩
          rintro b isPrevious header' isHeader'
          obtain rfl := some.inj (isHeader.symm.trans isHeader')
          obtain rfl := mem_def.mp isPrevious
          unfold verifyPrevious at verified
          dsimp only at verified
          split at verified
          · cases verified
          · rename_i last isLast
            split at verified
            · cases verified
            · split at verified
              · cases verified
              · rename_i sameHash
                exact ⟨last, isLast, of_not_not sameHash⟩

theorem chained_of_verifyBlockHashes (verified : verifyBlockHashes p previous blocks = .ok ()) :
    (∀ b ∈ blocks, Hashed p b) ∧ (previous.toList ++ blocks).IsChain (Linked p) := by
  induction blocks generalizing previous with
  | nil => cases previous <;> simp
  | cons block blocks ih =>
    obtain ⟨_, here, later⟩ := bind_eq_ok.mp verified
    obtain ⟨hashed, linked⟩ := hashed_of_verifyBlockHash here
    obtain ⟨allHashed, chained⟩ := ih later
    refine ⟨forall_mem_cons.mpr ⟨hashed, allHashed⟩, ?_⟩
    cases previous with
    | none => exact chained
    | some b => exact isChain_cons_cons.mpr ⟨linked b rfl, chained⟩

theorem sameHeaders_of_chained (hash : Function.Injective p.sha256) (encoding : Function.Injective p.asn1Marshal)
    {left right : List Block} (leftHashed : ∀ b ∈ left, Hashed p b) (rightHashed : ∀ b ∈ right, Hashed p b)
    (leftChained : left.IsChain (Linked p)) (rightChained : right.IsChain (Linked p)) (length : left.length = right.length)
    (last : left.getLast?.map (·.header) = right.getLast?.map (·.header)) :
    List.Forall₂ (fun b b' : Block => b.header = b'.header) left right := by
  induction left generalizing right with
  | nil =>
    obtain rfl := length_eq_zero_iff.mp length.symm
    exact .nil
  | cons b left ih =>
    cases right with
    | nil => cases length
    | cons b' right =>
      cases left with
      | nil =>
        obtain rfl := length_eq_zero_iff.mp (Nat.succ.inj length).symm
        exact .cons (some.inj last) .nil
      | cons c left =>
        cases right with
        | nil => cases length
        | cons c' right =>
          obtain ⟨link, leftChained⟩ := isChain_cons_cons.mp leftChained
          obtain ⟨link', rightChained⟩ := isChain_cons_cons.mp rightChained
          have rest := ih (fun d mem => leftHashed d (mem_cons_of_mem _ mem))
            (fun d mem => rightHashed d (mem_cons_of_mem _ mem)) leftChained rightChained (Nat.succ.inj length)
            (by simpa using last)
          obtain ⟨same, _⟩ := List.forall₂_cons.mp rest
          obtain ⟨header, _, isHeader, _⟩ := leftHashed c (by simp)
          obtain ⟨h, isH, hashes⟩ := link header isHeader
          obtain ⟨h', isH', hashes'⟩ := link' header (same ▸ isHeader)
          have equal : h = h' := encoding (hash (hashes.symm.trans hashes'))
          exact .cons (by rw [isH, isH', equal]) rest

theorem sameData_of_sameHeader (hash : Function.Injective p.sha256) {b b' : Block} (hashed : Hashed p b)
    (hashed' : Hashed p b') (same : b.header = b'.header) : b.data.map List.flatten = b'.data.map List.flatten := by
  obtain ⟨header, data, isHeader, isData, dataHash⟩ := hashed
  obtain ⟨header', data', isHeader', isData', dataHash'⟩ := hashed'
  obtain rfl := some.inj (isHeader.symm.trans (same.trans isHeader'))
  rw [isData, isData', map_some, map_some, hash (dataHash.symm.trans dataHash')]

theorem hashes_of_verifyBlocks (verified : verifyBlocks p v blocks = .ok ()) :
    verifyBlockHashes p none blocks = .ok () ∧ verifyConfigs p v none blocks = .ok () := by
  unfold verifyBlocks at verified
  split at verified
  · cases verified
  · obtain ⟨_, hashes, configs⟩ := bind_eq_ok.mp verified
    exact ⟨hashes, configs⟩

/-- Config blocks and the last block of an accepted buffer are signed as the config before them asks for, and an accepted
buffer is determined by its length and its last header. -/
theorem verifiedBlocks_authentic (p : Protoutil Config) (v : BlockVerifier Config) (blocks : List Block)
    (verified : verifyBlocks p v blocks = .ok ()) :
    (∀ before block after, blocks = before ++ block :: after → IsConfigBlock p block ∨ after = [] →
      SatisfiesPolicy p v (configInForce p none before) block) ∧
    (Function.Injective p.sha256 → Function.Injective p.asn1Marshal → ∀ v' blocks', verifyBlocks p v' blocks' = .ok () →
      blocks.length = blocks'.length → blocks.getLast?.map (·.header) = blocks'.getLast?.map (·.header) →
      List.Forall₂ (fun b b' => b.header = b'.header ∧ b.data.map List.flatten = b'.data.map List.flatten) blocks blocks') := by
  obtain ⟨hashes, configs⟩ := hashes_of_verifyBlocks verified
  obtain ⟨hashed, chained⟩ := chained_of_verifyBlockHashes hashes
  constructor
  · exact fun before block after split checked => signed_of_verifyConfigs configs split checked
  · intro hash encoding v' blocks' verified' length last
    obtain ⟨hashed', chained'⟩ := chained_of_verifyBlockHashes (hashes_of_verifyBlocks verified').1
    have headers := sameHeaders_of_chained hash encoding hashed hashed' chained chained' length last
    refine List.forall₂_iff_get.mpr ⟨length, fun i inside inside' => ?_⟩
    have same := (List.forall₂_iff_get.mp headers).2 i inside inside'
    exact ⟨same, sameData_of_sameHeader hash (hashed _ (List.get_mem _ _)) (hashed' _ (List.get_mem _ _)) same⟩

/-! A config block and a normal block, for a hash function and encodings that are easy to evaluate. -/

namespace TwoBlocks

def protoutil : Protoutil Unit where
  sha256 := id
  asn1Marshal := encodeVia (fun h => (h.number.toNat, h.previousHash, h.dataHash)) (encodePair encodeNat (encodePair encodeBytes encodeBytes))
  verifyTransactionsAreWellFormed _ := .ok ()
  payloadOfTransaction txn := .ok ⟨some txn, txn⟩
  channelHeaderType channelHeader := .ok channelHeader.length
  unmarshalConfigEnvelope _ := .ok ()
  unmarshalMetadata value := .ok ⟨value, [⟨[1], [2]⟩]⟩
  signatureHeaderCreator _ := .ok [9]

def oneSigner : Policy := fun signatureSet => if signatureSet.length = 1 then .ok () else .error (.error "rejected")

def verifier : BlockVerifier Unit := ⟨some oneSigner, fun _ => .ok (some oneSigner)⟩

def configBlock : Block := ⟨some ⟨1, [], [7]⟩, some [[7]], some [[3]]⟩

def normalBlock (data : List (List UInt8)) : Block :=
  ⟨some ⟨2, blockHeaderHash protoutil ⟨1, [], [7]⟩, [7, 7]⟩, some data, some [[3]]⟩

theorem asn1Marshal_injective : Function.Injective protoutil.asn1Marshal := by
  refine (prefixFree_via (prefixFree_pair prefixFree_nat (prefixFree_pair prefixFree_bytes prefixFree_bytes)) ?_).injective
  rintro ⟨n, previous, data⟩ ⟨n', previous', data'⟩ same
  obtain ⟨number, previous, data⟩ : n.toNat = n'.toNat ∧ _ ∧ _ := by simpa using same
  rw [UInt64.toNat_inj.mp number, previous, data]

theorem twoBlocks_authentic : verifyBlocks protoutil verifier [configBlock, normalBlock [[7, 7]]] = .ok () ∧
    SatisfiesPolicy protoutil verifier none configBlock ∧
    SatisfiesPolicy protoutil verifier (some ()) (normalBlock [[7, 7]]) ∧
    List.Forall₂ (fun b b' : Block => b.header = b'.header ∧ b.data.map List.flatten = b'.data.map List.flatten)
      [configBlock, normalBlock [[7, 7]]] [configBlock, normalBlock [[7], [7]]] := by
  obtain ⟨signed, determined⟩ := verifiedBlocks_authentic protoutil verifier [configBlock, normalBlock [[7, 7]]] rfl
  refine ⟨rfl, ?_, ?_, ?_⟩
  · exact signed [] configBlock _ rfl (.inl ⟨(), rfl⟩)
  · exact signed [configBlock] (normalBlock [[7, 7]]) [] rfl (.inr rfl)
  · exact determined Function.injective_id asn1Marshal_injective verifier _ rfl rfl rfl

end TwoBlocks

end Fabric.Proof.Cluster
