import Fabric.Policies.Policy

/-! # Soundness of signature policies -/

namespace Fabric.Proof.Policies

open Lib Fabric.Policies List Option
open Fabric.Configtx (SignedData)

variable {Identity : Type} {msp : MSP Identity} {identities : List MSPPrincipal} {who : List Identity}
  {used used₁ used₂ : List Bool}

def policyAt : SignaturePolicy → List Nat → Option SignaturePolicy
  | policy, [] => some policy
  | .nOutOf _ rules, k :: path => rules[k]?.bind fun rule => policyAt rule path
  | _, _ => none

mutual
def satisfied : SignaturePolicy → (List Nat → Bool) → Bool
  | .signedBy _, given => given []
  | .nOutOf n rules, given => n ≤ satisfiedCount rules fun k path => given (k :: path)
  | .unset, _ => false

def satisfiedCount : List SignaturePolicy → (Nat → List Nat → Bool) → Nat
  | [], _ => 0
  | rule :: rules, given => (satisfied rule (given 0)).toNat + satisfiedCount rules fun k => given (k + 1)
end

def FitsLeaf (msp : MSP Identity) (identities : List MSPPrincipal) (policy : SignaturePolicy) (path : List Nat)
    (ident : Identity) : Prop :=
  ∃ index principal, policyAt policy path = some (.signedBy index) ∧ 0 ≤ index ∧ identities[index.toNat]? = some principal ∧
    msp.satisfiesPrincipal ident principal

def Upheld (policy : SignaturePolicy) (given : List Nat → Bool) : Prop :=
  ∀ path gate leaf, policyAt policy path = some gate → given (path ++ leaf) → satisfied gate fun leaf => given (path ++ leaf)

structure Assigned (who : List Identity) (fits : List Nat → Identity → Prop) (used used' : List Bool)
    (taken : List Nat → Option Nat) : Prop where
  fresh : ∀ path i, taken path = some i → used[i]? = some false ∧ used'[i]? = some true
  distinct : ∀ path path' i, taken path = some i → taken path' = some i → path = path'
  fits : ∀ path i, taken path = some i → ∃ ident, who[i]? = some ident ∧ fits path ident
  kept : ∀ i : Nat, used'[i]? = used[i]? ∨ used[i]? = some false ∧ used'[i]? = some true

theorem Assigned.none (fits : List Nat → Identity → Prop) : Assigned who fits used used fun _ => none := by
  constructor <;> simp

variable {sat : Identity → Bool} {ident : Identity} {i : Nat}

theorem claimUnused_eq_some (claimed : claimUnused sat who used = some used₁) :
    ∃ i ident, who[i]? = some ident ∧ sat ident ∧ used[i]? = some false ∧ used₁ = used.set i true := by
  induction who generalizing used used₁ with
  | nil => simp [claimUnused] at claimed
  | cons sd who ih =>
    cases used with
    | nil => simp [claimUnused] at claimed
    | cons isUsed used =>
      unfold claimUnused at claimed
      split at claimed
      · rename_i here
        rw [Bool.and_eq_true, Bool.not_eq_true'] at here
        exact ⟨0, sd, rfl, here.2, by simp [here.1], (some.inj claimed).symm⟩
      · obtain ⟨rest, later, rfl⟩ := map_eq_some_iff.mp claimed
        obtain ⟨i, ident, found, holds, unused, rfl⟩ := ih later
        exact ⟨i + 1, ident, by simpa using found, holds, by simpa using unused, rfl⟩

theorem assigned_signedBy {fits : List Nat → Identity → Prop}
    (found : who[i]? = some ident) (unused : used[i]? = some false) (holds : fits [] ident) :
    Assigned who fits used (used.set i true) fun path => if path = [] then some i else none := by
  have inside := (List.getElem?_eq_some_iff.mp unused).1
  constructor
  · intro path j taken
    obtain ⟨rfl, same⟩ := ite_none_right_eq_some.mp taken
    obtain rfl := some.inj same
    exact ⟨unused, by simp [inside]⟩
  · intro path path' j taken taken'
    rw [(ite_none_right_eq_some.mp taken).1, (ite_none_right_eq_some.mp taken').1]
  · intro path j taken
    obtain ⟨rfl, same⟩ := ite_none_right_eq_some.mp taken
    obtain rfl := some.inj same
    exact ⟨ident, found, holds⟩
  · intro j
    by_cases same : i = j
    · subst same
      exact Or.inr ⟨unused, by simp [inside]⟩
    · exact Or.inl (getElem?_set_ne same)

def takenByRules (first rest : List Nat → Option Nat) : List Nat → Option Nat
  | 0 :: path => first path
  | (k + 1) :: path => rest (k :: path)
  | [] => none

theorem Assigned.rules {n : Int} {rule : SignaturePolicy} {rules : List SignaturePolicy} {first rest : List Nat → Option Nat}
    (head : Assigned who (FitsLeaf msp identities rule) used used₁ first)
    (tail : Assigned who (FitsLeaf msp identities (.nOutOf n rules)) used₁ used₂ rest) :
    Assigned who (FitsLeaf msp identities (.nOutOf n (rule :: rules))) used used₂ (takenByRules first rest) := by
  have apart : ∀ path path' i, first path = some i → rest path' = some i → False := by
    intro path path' i taken taken'
    have marked := (head.fresh path i taken).2
    rw [(tail.fresh path' i taken').1] at marked
    cases marked
  constructor
  · intro path i taken
    match path, taken with
    | 0 :: path, taken =>
      obtain ⟨before, marked⟩ := head.fresh path i taken
      rcases tail.kept i with same | ⟨unmarked, _⟩
      · exact ⟨before, same.trans marked⟩
      · simp [marked] at unmarked
    | (k + 1) :: path, taken =>
      obtain ⟨unmarked, after⟩ := tail.fresh (k :: path) i taken
      rcases head.kept i with same | ⟨_, marked⟩
      · exact ⟨same.symm.trans unmarked, after⟩
      · simp [marked] at unmarked
  · intro path path' i taken taken'
    match path, taken, path', taken' with
    | 0 :: path, taken, 0 :: path', taken' => rw [head.distinct path path' i taken taken']
    | 0 :: path, taken, (k + 1) :: path', taken' => exact (apart _ _ i taken taken').elim
    | (k + 1) :: path, taken, 0 :: path', taken' => exact (apart _ _ i taken' taken).elim
    | (k + 1) :: path, taken, (k' + 1) :: path', taken' => simpa using tail.distinct _ _ i taken taken'
  · intro path i taken
    match path, taken with
    | 0 :: path, taken => exact head.fits path i taken
    | (k + 1) :: path, taken => exact tail.fits (k :: path) i taken
  · intro i
    rcases head.kept i with same | ⟨before, marked⟩
    · rw [← same]
      exact tail.kept i
    · rcases tail.kept i with same | ⟨unmarked, _⟩
      · exact Or.inr ⟨before, same.trans marked⟩
      · simp [marked] at unmarked

mutual
theorem compile_sound : ∀ (policy : SignaturePolicy) {evaluator : Evaluator Identity} {used used' : List Bool},
    compile msp identities policy = .ok evaluator → evaluator who used = (true, used') →
    ∃ taken, Assigned who (FitsLeaf msp identities policy) used used' taken ∧
      satisfied policy (fun path => (taken path).isSome) ∧ Upheld policy fun path => (taken path).isSome
  | .nOutOf n rules, _, used, used', compiled, accepts => by
    obtain ⟨policies, isRules, result⟩ := bind_eq_ok.mp compiled
    cases result
    cases ran : evaluateRules who policies 0 used with
    | mk verified marked =>
      simp only [evaluateNOutOf, ran, Prod.mk.injEq, decide_eq_true_eq] at accepts
      obtain ⟨enough, rfl⟩ := accepts
      obtain ⟨taken, given, count, upheld⟩ := compileRules_sound n rules isRules ran
      have holds : satisfied (.nOutOf n rules) fun path => (taken path).isSome := by
        simp only [satisfied, decide_eq_true_eq]
        omega
      refine ⟨taken, given, holds, ?_⟩
      intro path gate leaf isGate isLeaf
      cases path with
      | nil =>
        obtain rfl := some.inj isGate
        exact holds
      | cons k path =>
        obtain ⟨rule, isRule, isGate⟩ := bind_eq_some_iff.mp isGate
        exact upheld k rule isRule path gate leaf isGate isLeaf
  | .signedBy index, _, used, used', compiled, accepts => by
    simp only [compile] at compiled
    split at compiled
    · cases compiled
    · rename_i principal found
      cases compiled
      obtain ⟨inside, found⟩ := ite_none_left_eq_some.mp found
      unfold evaluateSignedBy at accepts
      split at accepts
      · rename_i marked claimed
        cases accepts
        obtain ⟨i, ident, isIdentity, holds, unused, rfl⟩ := claimUnused_eq_some claimed
        refine ⟨_, assigned_signedBy isIdentity unused ⟨index, principal, rfl, by omega, found, holds⟩, by simp [satisfied], ?_⟩
        intro path gate leaf isGate isLeaf
        cases path with
        | nil =>
          obtain rfl := some.inj isGate
          simp [satisfied]
        | cons => cases isGate
      · cases accepts
  | .unset, _, _, _, compiled, _ => nomatch compiled

theorem compileRules_sound (n : Int) : ∀ (rules : List SignaturePolicy) {policies : List (Evaluator Identity)}
    {verified verified' : Int} {used used' : List Bool}, compileRules msp identities rules = .ok policies →
    evaluateRules who policies verified used = (verified', used') →
    ∃ taken, Assigned who (FitsLeaf msp identities (.nOutOf n rules)) used used' taken ∧
      verified' ≤ verified + satisfiedCount rules (fun k path => (taken (k :: path)).isSome) ∧
      ∀ k rule, rules[k]? = some rule → Upheld rule fun path => (taken (k :: path)).isSome
  | [], _, verified, verified', used, used', compiled, ran => by
    cases compiled
    cases ran
    exact ⟨_, .none _, by simp [satisfiedCount], by simp⟩
  | rule :: rules, _, verified, verified', used, used', compiled, ran => by
    obtain ⟨policy, isPolicy, compiled⟩ := bind_eq_ok.mp compiled
    obtain ⟨policies, isRules, result⟩ := bind_eq_ok.mp compiled
    cases result
    unfold evaluateRules at ran
    split at ran
    · rename_i marked accepts
      obtain ⟨first, head, here, upheld⟩ := compile_sound rule isPolicy accepts
      obtain ⟨rest, tail, count, below⟩ := compileRules_sound n rules isRules ran
      refine ⟨_, head.rules tail, ?_, ?_⟩
      · simp only [satisfiedCount, takenByRules, here, Bool.toNat_true]
        omega
      · intro k other isOther
        cases k with
        | zero =>
          obtain rfl := some.inj isOther
          exact upheld
        | succ k => exact below k other isOther
    · obtain ⟨rest, tail, count, below⟩ := compileRules_sound n rules isRules ran
      refine ⟨_, (Assigned.none (FitsLeaf msp identities rule)).rules tail, ?_, ?_⟩
      · simp only [satisfiedCount, takenByRules]
        omega
      · intro k other isOther
        cases k with
        | zero => nofun
        | succ k => exact below k other isOther
end

theorem signatureSetToValidIdentities_spec (msp : MSP Identity) (idMap : List String) (sigSet : List SignedData) :
    ((signatureSetToValidIdentities msp idMap sigSet).map msp.key).Nodup ∧
    ∀ ident ∈ signatureSetToValidIdentities msp idMap sigSet, msp.key ident ∉ idMap ∧
      ∃ sd ∈ sigSet, msp.deserializeIdentity sd.identity = some ident ∧ msp.verify ident sd.data sd.signature := by
  induction sigSet generalizing idMap with
  | nil => simp [signatureSetToValidIdentities]
  | cons sd sigSet ih =>
    have later (idMap : List String) (ident : Identity)
        (mem : ident ∈ signatureSetToValidIdentities msp idMap sigSet) : msp.key ident ∉ idMap ∧
        ∃ sd' ∈ sd :: sigSet, msp.deserializeIdentity sd'.identity = some ident ∧ msp.verify ident sd'.data sd'.signature := by
      obtain ⟨fresh, sd', listed, valid⟩ := (ih idMap).2 ident mem
      exact ⟨fresh, sd', mem_cons_of_mem _ listed, valid⟩
    unfold signatureSetToValidIdentities
    split
    · exact ⟨(ih idMap).1, later idMap⟩
    · rename_i ident deserialized
      split_ifs with met valid
      · exact ⟨(ih idMap).1, later idMap⟩
      · constructor
        · rw [map_cons, nodup_cons]
          refine ⟨?_, (ih _).1⟩
          intro again
          obtain ⟨other, mem, same⟩ := List.mem_map.mp again
          exact ((ih _).2 other mem).1 (by simp [same])
        · intro other mem
          rcases mem_cons.mp mem with rfl | mem
          · exact ⟨met, sd, mem_cons_self, deserialized, valid⟩
          · obtain ⟨fresh, valid⟩ := later _ other mem
            exact ⟨fun listed => fresh (mem_cons_of_mem _ listed), valid⟩
      · exact ⟨(ih idMap).1, later idMap⟩

theorem signaturePolicy_sound (msp : MSP Identity) (identities : List MSPPrincipal) (policy : SignaturePolicy)
    (evaluator : Evaluator Identity) (compiled : compile msp identities policy = .ok evaluator)
    (sigSet : List SignedData) (accepted : evaluateSignedData msp evaluator sigSet = .ok ()) :
    ∃ given : List Nat → Option Identity,
      (∀ path path' a b, given path = some a → given path' = some b → path ≠ path' →
        (msp.mspid a, msp.id a) ≠ (msp.mspid b, msp.id b)) ∧
      (∀ path ident, given path = some ident → FitsLeaf msp identities policy path ident ∧
        ∃ sd ∈ sigSet, msp.deserializeIdentity sd.identity = some ident ∧ msp.verify ident sd.data sd.signature) ∧
      satisfied policy (fun path => (given path).isSome) ∧ Upheld policy fun path => (given path).isSome := by
  obtain ⟨nodup, valid⟩ := signatureSetToValidIdentities_spec msp [] sigSet
  unfold evaluateSignedData evaluateIdentities at accepted
  generalize signatureSetToValidIdentities msp [] sigSet = ids at *
  split at accepted
  · rename_i accepts
    obtain ⟨taken, given, gates, upheld⟩ := compile_sound policy compiled (Prod.ext accepts rfl)
    have isSome : ∀ path, ((taken path).bind (ids[·]?)).isSome = (taken path).isSome := by
      intro path
      cases isTaken : taken path with
      | none => rfl
      | some i =>
        obtain ⟨ident, found, _⟩ := given.fits path i isTaken
        simp [found]
    refine ⟨fun path => (taken path).bind (ids[·]?), ?_, ?_, by simpa only [isSome] using gates,
      by simpa only [isSome] using upheld⟩
    · intro path path' a b first second apart same
      obtain ⟨i, isTaken, foundA⟩ := bind_eq_some_iff.mp first
      obtain ⟨j, isTaken', foundB⟩ := bind_eq_some_iff.mp second
      apply apart
      apply given.distinct path path' i isTaken
      have sameKey : (ids.map msp.key)[i]? = (ids.map msp.key)[j]? := by
        simp only [Prod.mk.injEq] at same
        simp [foundA, foundB, MSP.key, same]
      have inside : i < (ids.map msp.key).length := by simpa using (List.getElem?_eq_some_iff.mp foundA).1
      rw [(getElem?_inj inside nodup).mp sameKey]
      exact isTaken'
    · intro path ident first
      obtain ⟨i, isTaken, found⟩ := bind_eq_some_iff.mp first
      obtain ⟨ident', found', fits⟩ := given.fits path i isTaken
      obtain rfl := some.inj (found.symm.trans found')
      exact ⟨fits, (valid ident (mem_of_getElem? found)).2⟩
  · cases accepted

/-- Different entries of the list of identities satisfy the principals one by one. -/
def Assignable (msp : MSP Identity) (ps : List MSPPrincipal) (who : List Identity) : Prop :=
  ∃ entry : Nat → Nat, Set.InjOn entry {k | k < ps.length} ∧ ∀ k principal, ps[k]? = some principal →
    ∃ ident, who[entry k]? = some ident ∧ msp.satisfiesPrincipal ident principal

/-- Whoever sat `p` sat `q`. -/
def MorePrivileged (msp : MSP Identity) (who : List Identity) (p q : MSPPrincipal) : Prop :=
  ∀ ident ∈ who, msp.satisfiesPrincipal ident p → msp.satisfiesPrincipal ident q

def Names (identities : List MSPPrincipal) (index : Int) (principal : MSPPrincipal) : Prop :=
  0 ≤ index ∧ identities[index.toNat]? = some principal

def flatPolicy (indices : List Int) : SignaturePolicy := .nOutOf indices.length (indices.map .signedBy)

variable {indices : List Int} {ps : List MSPPrincipal}

theorem claimUnused_eq_none (sameLength : used.length = who.length) (unclaimed : claimUnused sat who used = none)
    (found : who[i]? = some ident) (holds : sat ident) : used[i]? = some true := by
  induction who generalizing used i with
  | nil => cases found
  | cons sd who ih =>
    cases used with
    | nil => cases sameLength
    | cons isUsed used =>
      unfold claimUnused at unclaimed
      split at unclaimed
      · cases unclaimed
      · rename_i passed
        cases i with
        | zero =>
          obtain rfl := some.inj found
          simpa [holds] using passed
        | succ i =>
          rw [getElem?_cons_succ] at found ⊢
          exact ih (by simpa using sameLength) (by simpa using unclaimed) found

theorem compileRules_signedBy (named : Forall₂ (Names identities) indices ps) : compileRules msp identities (indices.map .signedBy) =
      .ok (ps.map fun principal => evaluateSignedBy (msp.satisfiesPrincipal · principal)) := by
  induction named with
  | nil => rfl
  | cons isNamed _ ih =>
    simp only [map_cons, compileRules, ih, compile, if_neg (not_lt.mpr isNamed.1), isNamed.2]
    rfl

theorem satisfiedCount_signedBy (indices : List Int) (given : Nat → List Nat → Bool) :
    satisfiedCount (indices.map .signedBy) given ≤ indices.length ∧
    (indices.length ≤ satisfiedCount (indices.map .signedBy) given → ∀ k < indices.length, given k []) := by
  induction indices generalizing given with
  | nil => simp [satisfiedCount]
  | cons index indices ih =>
    obtain ⟨bound, all⟩ := ih fun k => given (k + 1)
    simp only [map_cons, satisfiedCount, satisfied, length_cons]
    have single := Bool.toNat_le (given 0 [])
    refine ⟨by omega, fun full k inside => ?_⟩
    cases k with
    | zero =>
      rw [← Bool.toNat_eq_one]
      omega
    | succ k => exact all (by omega) k (by omega)

/-- As many entries are used as principals were met, and one more principal needs one entry more. -/
theorem evaluateRules_assignable (nested : ps.Pairwise (MorePrivileged msp who))
    (assignable : Assignable msp ps who) (met rest : List MSPPrincipal) (split : met ++ rest = ps)
    (chosen : List Nat) (asMany : chosen.length = met.length) (sameLength : used.length = who.length)
    (covers : ∀ i : Nat, used[i]? = some true → i ∈ chosen) (verified : Int) :
    (evaluateRules who (rest.map fun p => evaluateSignedBy (msp.satisfiesPrincipal · p)) verified used).1 = verified + rest.length := by
  induction rest generalizing met chosen used verified with
  | nil => simp [evaluateRules]
  | cons p rest ih =>
    have next := fun used chosen asMany sameLength covers =>
      @ih used (met ++ [p]) (by simpa using split) chosen asMany sameLength covers (verified + 1)
    simp only [map_cons, evaluateRules, evaluateSignedBy]
    cases claimed : claimUnused (msp.satisfiesPrincipal · p) who used with
    | some marked =>
      obtain ⟨i, _, _, _, _, rfl⟩ := claimUnused_eq_some claimed
      rw [next _ (i :: chosen) (by simp [asMany]) (by simpa using sameLength), length_cons]
      · push_cast
        ring
      · intro j isUsed
        by_cases same : i = j
        · exact same ▸ mem_cons_self
        · rw [getElem?_set_ne same] at isUsed
          exact mem_cons_of_mem _ (covers j isUsed)
    | none =>
      obtain ⟨entry, distinct, fits⟩ := assignable
      have short : met.length < ps.length := by simp [← split]
      have fitsNext : ∀ k < met.length + 1, ∃ ident, who[entry k]? = some ident ∧ msp.satisfiesPrincipal ident p := by
        intro k inside
        rcases Nat.lt_succ_iff_lt_or_eq.mp inside with before | rfl
        · obtain ⟨ident, found, holds⟩ := fits k met[k] (by rw [← split, getElem?_append_left before, getElem?_eq_getElem before])
          rw [← split] at nested
          exact ⟨ident, found, (pairwise_append.mp nested).2.2 _ (getElem_mem before) p mem_cons_self ident
            (mem_of_getElem? found) holds⟩
        · exact fits _ p (by simp [← split])
      have subset : (range (met.length + 1)).map entry ⊆ chosen := by
        intro i mem
        obtain ⟨k, inside, rfl⟩ := mem_map.mp mem
        obtain ⟨ident, found, holds⟩ := fitsNext k (mem_range.mp inside)
        exact covers _ (claimUnused_eq_none sameLength claimed found holds)
      have nodup : ((range (met.length + 1)).map entry).Nodup := by
        refine nodup_range.map_on ?_
        intro j insideJ k insideK same
        rw [mem_range] at insideJ insideK
        exact distinct (by simp; omega) (by simp; omega) same
      have := (nodup.subperm subset).length_le
      simp at this
      omega

/-- Whatever the order of the identities, a flat policy over principals from the most to the least privileged accepts
exactly the lists that have an assignment. -/
theorem flatPolicy_accepts_iff (msp : MSP Identity) (identities ps : List MSPPrincipal) (indices : List Int)
    (named : Forall₂ (Names identities) indices ps) (who : List Identity)
    (nested : ps.Pairwise (MorePrivileged msp who)) :
    ∃ evaluator, compile msp identities (flatPolicy indices) = .ok evaluator ∧
      (evaluateIdentities evaluator who = .ok () ↔ Assignable msp ps who) := by
  have compiled : compile msp identities (flatPolicy indices) = .ok (evaluateNOutOf indices.length
      (ps.map fun p => evaluateSignedBy (msp.satisfiesPrincipal · p))) := by
    rw [flatPolicy, compile, compileRules_signedBy named]
    rfl
  have lengths := named.length_eq
  refine ⟨_, compiled, ?_⟩
  unfold evaluateIdentities
  split
  · rename_i accepts
    refine iff_of_true rfl ?_
    obtain ⟨taken, given, gates, _⟩ := compile_sound _ compiled (Prod.ext accepts rfl)
    have all := (satisfiedCount_signedBy indices _).2 (by simpa [flatPolicy, satisfied] using gates)
    simp only [lengths, isSome_iff_exists] at all
    choose! entry isTaken using all
    refine ⟨entry, ?_, ?_⟩
    · intro j insideJ k insideK same
      have := given.distinct [j] [k] _ (isTaken j insideJ) (same ▸ isTaken k insideK)
      simpa using this
    · intro k principal found
      obtain ⟨inside, rfl⟩ := List.getElem?_eq_some_iff.mp found
      obtain ⟨ident, isIdentity, index, other, isLeaf, _, isOther, holds⟩ := given.fits [k] _ (isTaken k inside)
      refine ⟨ident, isIdentity, ?_⟩
      have isIndex : indices[k]? = some index := by simpa [flatPolicy, policyAt] using isLeaf
      obtain ⟨insideI, rfl⟩ := List.getElem?_eq_some_iff.mp isIndex
      obtain rfl := some.inj (isOther.symm.trans (named.get insideI inside).2)
      exact holds
  · rename_i refused
    refine iff_of_false nofun ?_
    intro assignable
    apply refused
    rw [evaluateNOutOf, decide_eq_true_eq, evaluateRules_assignable nested assignable [] ps rfl [] rfl (by simp)]
    · simp [lengths]
    · simp [getElem?_replicate]

def byteMSP : MSP UInt8 where
  deserializeIdentity b := b.head?
  mspid _ := "Org"
  id b := toString b.toNat
  verify b _ signature := signature = [b]
  satisfiesPrincipal b principal := principal.principal = [b]

theorem twoSigners_sound : ∃ given : List Nat → Option UInt8,
    (∀ path ident, given path = some ident → FitsLeaf byteMSP [⟨0, [1]⟩, ⟨0, [2]⟩] (.nOutOf 2 [.signedBy 0, .signedBy 1]) path ident ∧
      ident ∈ [2, 1]) ∧ satisfied (.nOutOf 2 [.signedBy 0, .signedBy 1]) fun path => (given path).isSome := by
  obtain ⟨given, _, fits, gates, _⟩ := signaturePolicy_sound byteMSP [⟨0, [1]⟩, ⟨0, [2]⟩] (.nOutOf 2 [.signedBy 0, .signedBy 1])
    _ rfl [⟨[], [2], [2]⟩, ⟨[], [2], [2]⟩, ⟨[], [1], [1]⟩] (by decide)
  refine ⟨given, fun path ident isGiven => ?_, gates⟩
  obtain ⟨fit, sd, mem, isIdent, _⟩ := fits path ident isGiven
  refine ⟨fit, ?_⟩
  simp only [List.mem_cons, List.not_mem_nil, or_false] at mem
  rcases mem with rfl | rfl | rfl <;> cases isIdent <;> decide

/-- Bytes as identities: a principal of the length of its text is satisfied by every byte from there on. -/
def privilegeMSP : MSP UInt8 := { byteMSP with satisfiesPrincipal b p := p.principal.length ≤ b.toNat }

theorem adminAndMember_accepts : ∃ evaluator,
    compile privilegeMSP [⟨0, [0]⟩, ⟨0, [0, 0]⟩] (flatPolicy [1, 0]) = .ok evaluator ∧
    (evaluateIdentities evaluator [1, 2] = .ok () ↔ Assignable privilegeMSP [⟨0, [0, 0]⟩, ⟨0, [0]⟩] [1, 2]) :=
  flatPolicy_accepts_iff _ _ _ _ (by simp [Names]) _ (by simp [privilegeMSP, MorePrivileged])

end Fabric.Proof.Policies
