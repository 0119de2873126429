import Fabric.Lib.Extract
import Fabric.Proof.Policies.ImplicitMeta
import Fabric.Proof.Policies.Signature

/-! # Conversion of implicit meta policies -/

namespace Fabric.Proof.Policies

open Lib Fabric.Policies
open Option hiding merge
open List hiding getElem?_insert merge

variable {Identity : Type} {msp : MSP Identity} {identities : List MSPPrincipal} {who : List Identity}
  {R R' : Identity → Bool} {u v w : List Bool}
  {policies : List (Evaluator Identity)} {start old : List MSPPrincipal} {m : Merging}
  {policy : Evaluator Identity} {p : MSPPrincipal} {ids : List MSPPrincipal} {sig : SignaturePolicyEnvelope}

structure AgreeOn (R : Identity → Bool) (who : List Identity) (u v : List Bool) : Prop where
  left : u.length = who.length
  right : v.length = who.length
  same : ∀ (i : Nat) ident, who[i]? = some ident → R ident → u[i]? = v[i]?

theorem AgreeOn.mono (agree : AgreeOn R who u v) (fewer : ∀ ident ∈ who, R' ident → R ident) : AgreeOn R' who u v :=
  ⟨agree.left, agree.right, fun i ident found interest =>
    agree.same i ident found (fewer ident (mem_of_getElem? found) interest)⟩

theorem AgreeOn.trans (first : AgreeOn R who u v) (second : AgreeOn R who v w) : AgreeOn R who u w :=
  ⟨first.left, second.right, fun i ident found interest =>
    (first.same i ident found interest).trans (second.same i ident found interest)⟩

theorem agreeOn_cons {ident : Identity} {a b : Bool} :
    AgreeOn R (ident :: who) (a :: u) (b :: v) ↔ (R ident → a = b) ∧ AgreeOn R who u v := by
  constructor
  · intro agree
    exact ⟨fun interest => by simpa using agree.same 0 ident rfl interest,
      by simpa using agree.left, by simpa using agree.right, fun i => agree.same (i + 1)⟩
  · intro ⟨here, rest⟩
    refine ⟨by simp [rest.left], by simp [rest.right], fun i other found interest => ?_⟩
    cases i with
    | zero =>
      obtain rfl := some.inj found
      simp [here interest]
    | succ i => exact rest.same i other found interest

/-- An evaluator looks at the marks of the identities of interest only, and changes no others. -/
structure IsLocal (R : Identity → Bool) (evaluator : Evaluator Identity) (who : List Identity) : Prop where
  reads : ∀ u v, AgreeOn R who u v → (evaluator who u).1 = (evaluator who v).1 ∧
    AgreeOn R who (evaluator who u).2 (evaluator who v).2
  marks : ∀ u, u.length = who.length → AgreeOn (!R ·) who (evaluator who u).2 u

theorem IsLocal.mono {evaluator : Evaluator Identity} (isLocal : IsLocal R evaluator who)
    (more : ∀ ident, R ident → R' ident) : IsLocal R' evaluator who := by
  constructor
  · intro u v agree
    obtain ⟨same, after⟩ := isLocal.reads u v (agree.mono fun ident _ => more ident)
    refine ⟨same, after.left, after.right, fun i ident found interest => ?_⟩
    cases here : R ident with
    | true => exact after.same i ident found here
    | false =>
      rw [(isLocal.marks u agree.left).same i ident found (by simp [here]), (isLocal.marks v agree.right).same i ident found (by simp [here])]
      exact agree.same i ident found interest
  · intro u lengths
    apply (isLocal.marks u lengths).mono
    intro ident _ outside
    cases here : R ident with
    | false => rfl
    | true => simp [more ident here] at outside

theorem claimUnused_agree {sat : Identity → Bool} (agree : AgreeOn sat who u v) :
    (claimUnused sat who u).isSome = (claimUnused sat who v).isSome ∧
    AgreeOn sat who ((claimUnused sat who u).getD u) ((claimUnused sat who v).getD v) := by
  induction who generalizing u v with
  | nil => exact ⟨by simp [claimUnused], by simpa [claimUnused] using agree⟩
  | cons ident who ih =>
    obtain ⟨a, u, rfl⟩ := exists_cons_of_length_eq_add_one agree.left
    obtain ⟨b, v, rfl⟩ := exists_cons_of_length_eq_add_one agree.right
    obtain ⟨here, rest⟩ := agreeOn_cons.mp agree
    obtain ⟨found, after⟩ := ih rest
    unfold claimUnused
    cases interest : sat ident with
    | false =>
      simp only [Bool.and_false, Bool.false_eq_true, if_false, isSome_map]
      refine ⟨found, ?_⟩
      cases claimed : claimUnused sat who u <;> cases claimed' : claimUnused sat who v <;>
        simp_all [agreeOn_cons]
    | true =>
      obtain rfl := here interest
      cases a with
      | false => simpa [agreeOn_cons] using rest
      | true =>
        simp only [Bool.not_true, Bool.false_and, Bool.false_eq_true, if_false, isSome_map]
        refine ⟨found, ?_⟩
        cases claimed : claimUnused sat who u <;> cases claimed' : claimUnused sat who v <;>
          simp_all [agreeOn_cons]

theorem isLocal_signedBy (sat : Identity → Bool) : IsLocal sat (evaluateSignedBy sat) who := by
  have result (u : List Bool) : evaluateSignedBy sat who u = ((claimUnused sat who u).isSome, (claimUnused sat who u).getD u) := by
    unfold evaluateSignedBy
    cases claimUnused sat who u <;> rfl
  constructor
  · intro u v agree
    rw [result, result]
    exact claimUnused_agree agree
  · intro u lengths
    rw [result]
    cases claimed : claimUnused sat who u with
    | none => exact ⟨lengths, lengths, fun _ _ _ _ => rfl⟩
    | some marked =>
      obtain ⟨i, ident, found, holds, _, rfl⟩ := claimUnused_eq_some claimed
      refine ⟨by simp [lengths], lengths, fun j other isOther outside => ?_⟩
      have apart : i ≠ j := by
        rintro rfl
        obtain rfl := some.inj (found.symm.trans isOther)
        simp [holds] at outside
      simp [getElem?_set_ne apart]

theorem isLocal_nOutOf (each : ∀ policy ∈ policies, IsLocal R policy who) (n : Int) : IsLocal R (evaluateNOutOf n policies) who := by
  have rules : ∀ verified u v, AgreeOn R who u v → (evaluateRules who policies verified u).1 = (evaluateRules who policies verified v).1 ∧
      AgreeOn R who (evaluateRules who policies verified u).2 (evaluateRules who policies verified v).2 ∧
      AgreeOn (!R ·) who (evaluateRules who policies verified u).2 u := by
    induction policies with
    | nil => exact fun _ u _ agree => ⟨rfl, agree, agree.left, agree.left, fun _ _ _ _ => rfl⟩
    | cons policy policies ih =>
      intro verified u v agree
      have first := each policy mem_cons_self
      have others := ih fun policy mem => each policy (mem_cons_of_mem _ mem)
      obtain ⟨same, after⟩ := first.reads u v agree
      unfold evaluateRules
      cases ranU : policy who u with
      | mk accepts u' =>
        cases ranV : policy who v with
        | mk accepts' v' =>
          simp only [ranU, ranV] at same after
          subst same
          cases accepts with
          | false => exact others verified u v agree
          | true =>
            obtain ⟨count, marked, kept⟩ := others (verified + 1) u' v' after
            have outside := first.marks u agree.left
            rw [ranU] at outside
            exact ⟨count, marked, kept.trans outside⟩
  constructor
  · intro u v agree
    obtain ⟨count, marked, _⟩ := rules 0 u v agree
    exact ⟨by simp only [evaluateNOutOf, count], marked⟩
  · intro u lengths
    exact (rules 0 u u ⟨lengths, lengths, fun _ _ _ _ => rfl⟩).2.2

def principalOf (identities : List MSPPrincipal) (index : Int) : Option MSPPrincipal :=
  if index < 0 then none else identities[index.toNat]?

mutual
def ruleConcerns (msp : MSP Identity) (identities : List MSPPrincipal) : SignaturePolicy → Identity → Bool
  | .nOutOf _ rules, ident => rulesConcern msp identities rules ident
  | .signedBy index, ident => (principalOf identities index).any (msp.satisfiesPrincipal ident)
  | .unset, _ => false

def rulesConcern (msp : MSP Identity) (identities : List MSPPrincipal) : List SignaturePolicy → Identity → Bool
  | [], _ => false
  | rule :: rules, ident => ruleConcerns msp identities rule ident || rulesConcern msp identities rules ident
end

mutual
theorem compile_isLocal : ∀ (policy : SignaturePolicy) {evaluator : Evaluator Identity},
    compile msp identities policy = .ok evaluator → IsLocal (ruleConcerns msp identities policy) evaluator who
  | .nOutOf n rules, _, compiled => by
    obtain ⟨policies, isRules, result⟩ := bind_eq_ok.mp compiled
    cases result
    exact isLocal_nOutOf (compileRules_isLocal rules isRules) n
  | .signedBy index, _, compiled => by
    simp only [compile] at compiled
    split at compiled
    · cases compiled
    · rename_i principal found
      cases compiled
      apply (isLocal_signedBy _).mono
      intro ident holds
      simpa [ruleConcerns, principalOf, found] using holds
  | .unset, _, compiled => nomatch compiled

theorem compileRules_isLocal : ∀ (rules : List SignaturePolicy) {policies : List (Evaluator Identity)},
    compileRules msp identities rules = .ok policies → ∀ policy ∈ policies, IsLocal (rulesConcern msp identities rules) policy who
  | [], _, compiled => by
    cases compiled
    nofun
  | rule :: rules, _, compiled => by
    obtain ⟨policy, isPolicy, compiled⟩ := bind_eq_ok.mp compiled
    obtain ⟨policies, isRules, result⟩ := bind_eq_ok.mp compiled
    cases result
    intro other mem
    rcases mem_cons.mp mem with rfl | mem
    · exact (compile_isLocal rule isPolicy).mono fun ident here => by simp [rulesConcern, here]
    · exact (compileRules_isLocal rules isRules other mem).mono fun ident there => by simp [rulesConcern, there]
end

/-- The principals under the old numbers are satisfied by the same identities as those under the new numbers. -/
def Renumbers (msp : MSP Identity) (old new : List MSPPrincipal) (idRemap : List Nat) : Prop :=
  ∀ (i : Nat) principal, old[i]? = some principal → ∃ j principal', idRemap[i]? = some j ∧ new[j]? = some principal' ∧
    ∀ ident, msp.satisfiesPrincipal ident principal' = msp.satisfiesPrincipal ident principal

mutual
theorem compile_remap {old new : List MSPPrincipal} {idRemap : List Nat} (renumbers : Renumbers msp old new idRemap) :
    ∀ (policy : SignaturePolicy) {evaluator : Evaluator Identity}, compile msp old policy = .ok evaluator →
    ∃ policy', remap idRemap policy = .ok policy' ∧ compile msp new policy' = .ok evaluator
  | .nOutOf n rules, _, compiled => by
    obtain ⟨policies, isRules, result⟩ := bind_eq_ok.mp compiled
    cases result
    obtain ⟨rules', remapped, compiled'⟩ := compileRules_remap renumbers rules isRules
    exact ⟨.nOutOf n rules', bind_eq_ok.mpr ⟨_, remapped, rfl⟩, bind_eq_ok.mpr ⟨_, compiled', rfl⟩⟩
  | .signedBy index, _, compiled => by
    simp only [compile] at compiled
    split at compiled
    · cases compiled
    · rename_i principal found
      cases compiled
      obtain ⟨inside, found⟩ := ite_none_left_eq_some.mp found
      obtain ⟨j, principal', isNew, found', same⟩ := renumbers _ _ found
      refine ⟨.signedBy j, by simp [remap, inside, isNew], ?_⟩
      have notNegative : ¬ (j : Int) < 0 := by omega
      simp [compile, notNegative, found', same]
  | .unset, _, compiled => nomatch compiled

theorem compileRules_remap {old new : List MSPPrincipal} {idRemap : List Nat} (renumbers : Renumbers msp old new idRemap) :
    ∀ (rules : List SignaturePolicy) {policies : List (Evaluator Identity)}, compileRules msp old rules = .ok policies →
    ∃ rules', remapRules idRemap rules = .ok rules' ∧ compileRules msp new rules' = .ok policies
  | [], _, compiled => ⟨[], rfl, compiled⟩
  | rule :: rules, _, compiled => by
    obtain ⟨policy, isPolicy, compiled⟩ := bind_eq_ok.mp compiled
    obtain ⟨policies, isRules, result⟩ := bind_eq_ok.mp compiled
    cases result
    obtain ⟨rule', remapped, compiled'⟩ := compile_remap renumbers rule isPolicy
    obtain ⟨rules', remapped', compiled''⟩ := compileRules_remap renumbers rules isRules
    exact ⟨rule' :: rules', by simp [remapRules, remapped, remapped', bind, Except.bind],
      by simp [compileRules, compiled', compiled'', bind, Except.bind]⟩
end

mutual
theorem compile_mono {old new : List MSPPrincipal} (grown : old <+: new) : ∀ (policy : SignaturePolicy)
    {evaluator : Evaluator Identity}, compile msp old policy = .ok evaluator → compile msp new policy = .ok evaluator
  | .nOutOf n rules, _, compiled => by
    obtain ⟨policies, isRules, result⟩ := bind_eq_ok.mp compiled
    exact bind_eq_ok.mpr ⟨policies, compileRules_mono grown rules isRules, result⟩
  | .signedBy index, _, compiled => by
    simp only [compile] at compiled ⊢
    split at compiled
    · cases compiled
    · rename_i principal found
      obtain ⟨inside, found⟩ := ite_none_left_eq_some.mp found
      obtain ⟨more, rfl⟩ := grown
      have kept : (old ++ more)[index.toNat]? = some principal := by
        rw [getElem?_append_left (List.getElem?_eq_some_iff.mp found).1, found]
      simp [inside, kept, compiled]
  | .unset, _, compiled => nomatch compiled

theorem compileRules_mono {old new : List MSPPrincipal} (grown : old <+: new) : ∀ (rules : List SignaturePolicy)
    {policies : List (Evaluator Identity)}, compileRules msp old rules = .ok policies → compileRules msp new rules = .ok policies
  | [], _, compiled => compiled
  | rule :: rules, _, compiled => by
    obtain ⟨policy, isPolicy, compiled⟩ := bind_eq_ok.mp compiled
    obtain ⟨policies, isRules, result⟩ := bind_eq_ok.mp compiled
    exact bind_eq_ok.mpr ⟨policy, compile_mono grown rule isPolicy, bind_eq_ok.mpr ⟨policies, compileRules_mono grown rules isRules, result⟩⟩
end

def Known (p : MSPPrincipal) : Prop := 0 ≤ p.principalClassification ∧ p.principalClassification ≤ 4

theorem head_decimal (n : Int) : ∃ b rest, (toString n).toList.map (fun c => UInt8.ofNat c.toNat) = b :: rest ∧ b.toNat < 65 := by
  cases n with
  | ofNat m =>
    cases digits : Nat.toDigits 10 m with
    | nil => exact absurd digits Nat.toDigits_ne_nil
    | cons c rest =>
      have digit : c.isDigit := Nat.isDigit_of_mem_toDigits (by decide) (by decide) (digits ▸ mem_cons_self)
      have small : c.toNat ≤ 57 := by
        simp only [Char.isDigit, Bool.and_eq_true, decide_eq_true_eq] at digit
        exact digit.2
      refine ⟨UInt8.ofNat c.toNat, rest.map fun c => UInt8.ofNat c.toNat, ?_, ?_⟩
      · change (String.ofList (Nat.toDigits 10 m)).toList.map _ = _
        rw [String.toList_ofList, digits]
        rfl
      · rw [UInt8.toNat_ofNat']
        omega
  | negSucc m =>
    refine ⟨45, (Nat.repr (m + 1)).toList.map fun c => UInt8.ofNat c.toNat, ?_, by decide⟩
    change ("-" ++ Nat.repr (m + 1)).toList.map _ = _
    rw [String.toList_append]
    rfl

theorem classification_cases (n : Int) : (n = 0 ∨ n = 1 ∨ n = 2 ∨ n = 3 ∨ n = 4) ∨
      ¬(0 ≤ n ∧ n ≤ 4) ∧ ∃ b rest, classificationName n = b :: rest ∧ b.toNat < 65 := by
  by_cases known : 0 ≤ n ∧ n ≤ 4
  · exact Or.inl (by omega)
  · refine Or.inr ⟨known, ?_⟩
    unfold classificationName
    split
    iterate 5 exact absurd (by decide) known
    exact head_decimal n

theorem str_eq {q : MSPPrincipal} (same : p.str = q.str) : p = q ∨ ¬ Known p ∧ ¬ Known q := by
  obtain ⟨n, principal⟩ := p
  obtain ⟨m, principal'⟩ := q
  simp only [MSPPrincipal.str] at same
  rcases classification_cases n with known | ⟨unknown, b, rest, isName, small⟩
  · rcases classification_cases m with known' | ⟨_, b, rest, isName, small⟩
    · rcases known with rfl | rfl | rfl | rfl | rfl <;> rcases known' with rfl | rfl | rfl | rfl | rfl <;>
        simp_all [classificationName]
    · rw [isName] at same
      rcases known with rfl | rfl | rfl | rfl | rfl <;>
        (obtain ⟨rfl, _⟩ := List.cons.inj same; exact absurd small (by decide))
  · rcases classification_cases m with known' | ⟨unknown', _⟩
    · rw [isName] at same
      rcases known' with rfl | rfl | rfl | rfl | rfl <;>
        (obtain ⟨rfl, _⟩ := List.cons.inj same; exact absurd small (by decide))
    · exact Or.inr ⟨unknown, unknown'⟩

structure Merged (start : List MSPPrincipal) (m : Merging) (old : List MSPPrincipal) : Prop where
  grown : start <+: m.ids
  mapped : ∀ (str : List UInt8) (j : Nat), m.idMap[str]? = some j → ∃ p, m.ids[j]? = some p ∧ p.str = str
  length : m.idRemap.length = old.length
  remapped : ∀ (i : Nat) p, old[i]? = some p → ∃ j p', m.idRemap[i]? = some j ∧ m.ids[j]? = some p' ∧ p'.str = p.str

theorem Merged.remap_add (merged : Merged start m old) (kept : m.ids <+: ids) {id : MSPPrincipal} {j : Nat}
    (found : ids[j]? = some p) (same : p.str = id.str) : ∀ (i : Nat) q, (old ++ [id])[i]? = some q →
      ∃ j' p', (m.idRemap ++ [j])[i]? = some j' ∧ ids[j']? = some p' ∧ p'.str = q.str := by
  intro i q isOld
  rcases getElem?_concat_eq_some.mp isOld with earlier | ⟨rfl, rfl⟩
  · obtain ⟨j', p', isNew, found', same'⟩ := merged.remapped i q earlier
    exact ⟨j', p', getElem?_concat_eq_some.mpr (.inl isNew), getElem?_of_isPrefix kept found', same'⟩
  · exact ⟨j, p, getElem?_concat_eq_some.mpr (.inr ⟨merged.length.symm, rfl⟩), found, same⟩

theorem Merged.add (merged : Merged start m old) (id : MSPPrincipal) : Merged start (m.add id) (old ++ [id]) := by
  unfold Merging.add
  cases present : m.idMap[id.str]? with
  | some j =>
    obtain ⟨p, found, same⟩ := merged.mapped _ _ present
    exact ⟨merged.grown, merged.mapped, by simp [merged.length], merged.remap_add prefix_rfl found same⟩
  | none =>
    have kept : m.ids <+: m.ids ++ [id] := prefix_append _ _
    refine ⟨merged.grown.trans kept, ?_, by simp [merged.length], merged.remap_add kept (getElem?_concat_eq_some.mpr (.inr ⟨rfl, rfl⟩)) rfl⟩
    intro str j isMapped
    rw [getElem?_insert] at isMapped
    split at isMapped
    · rename_i same
      obtain rfl := some.inj isMapped
      exact ⟨id, by simp, Std.compare_eq_iff_eq.mp same⟩
    · obtain ⟨p, found, same⟩ := merged.mapped str j isMapped
      exact ⟨p, getElem?_of_isPrefix kept found, same⟩

theorem merged_foldl {idMap : Map (List UInt8) Nat}
    (mapped : ∀ (str : List UInt8) (j : Nat), idMap[str]? = some j → ∃ p, start[j]? = some p ∧ p.str = str)
    (old : List MSPPrincipal) : Merged start (old.foldl Merging.add ⟨start, idMap, []⟩) old := by
  induction old using reverseRecOn with
  | nil => exact ⟨prefix_rfl, mapped, rfl, by simp⟩
  | append_singleton old id merged =>
    rw [foldl_append]
    exact merged.add id

/-- No identity satisfies a principal whose classification the providers do not know. -/
def RejectsUnknown (msp : MSP Identity) : Prop :=
  ∀ ident p, ¬ Known p → msp.satisfiesPrincipal ident p = false

theorem Merged.renumbers (rejects : RejectsUnknown msp) (merged : Merged start m old) : Renumbers msp old m.ids m.idRemap := by
  intro i p isOld
  obtain ⟨j, p', isNew, found, same⟩ := merged.remapped i p isOld
  refine ⟨j, p', isNew, found, fun ident => ?_⟩
  rcases str_eq same with rfl | ⟨unknown', unknown⟩
  · rfl
  · rw [rejects ident p' unknown', rejects ident p unknown]

theorem compileRules_concat {rule : SignaturePolicy} {policy : Evaluator Identity}
    (compiled : compile msp identities rule = .ok policy) : ∀ (rules : List SignaturePolicy)
    {policies : List (Evaluator Identity)}, compileRules msp identities rules = .ok policies →
    compileRules msp identities (rules ++ [rule]) = .ok (policies ++ [policy])
  | [], _, isRules => by
    cases isRules
    simp [compileRules, compiled, bind, Except.bind]
  | first :: rules, _, isRules => by
    obtain ⟨_, isFirst, compiledRules⟩ := bind_eq_ok.mp isRules
    obtain ⟨_, others, result⟩ := bind_eq_ok.mp compiledRules
    cases result
    simp [compileRules, isFirst, compileRules_concat compiled rules others, bind, Except.bind]

theorem newPolicy_eq_ok (created : newPolicy msp sig = .ok policy) :
    ∃ rule, sig.rule = some rule ∧ compile msp sig.identities rule = .ok policy := by
  unfold newPolicy at created
  split at created
  · cases created
  · split at created
    · cases created
    · exact ⟨_, ‹_›, created⟩

theorem mapped_zipIdx (ids : List MSPPrincipal) (str : List UInt8) (j : Nat)
    (found : (ids.zipIdx.foldl (fun idMap id => idMap.insert id.1.str id.2) (∅ : Map (List UInt8) Nat))[str]? = some j) :
    ∃ p, ids[j]? = some p ∧ p.str = str := by
  have entries : ids.zipIdx.foldl (fun idMap id => idMap.insert id.1.str id.2) (∅ : Map (List UInt8) Nat) =
      putAll ∅ (ids.zipIdx.map fun id => (id.1.str, id.2)) := by
    rw [putAll, foldl_map]
  rw [entries, get_putAll] at found
  have mem : (str, j) ∈ ids.zipIdx.map fun id => (id.1.str, id.2) := mem_of_lastFor (by simpa using found)
  obtain ⟨⟨p, i⟩, isEntry, same⟩ := List.mem_map.mp mem
  cases same
  exact ⟨p, mem_zipIdx_iff_getElem?.mp isEntry, rfl⟩

theorem merge_spec (rejects : RejectsUnknown msp) {rules : List SignaturePolicy}
    (isRules : compileRules msp ids rules = .ok policies) {that : SignaturePolicyEnvelope}
    (isPolicy : newPolicy msp that = .ok policy) : ∃ ids' rules', merge (ids, rules) that = .ok (ids', rules') ∧
      compileRules msp ids' rules' = .ok (policies ++ [policy]) := by
  have merged := merged_foldl (mapped_zipIdx ids) that.identities
  obtain ⟨rule, isRule, isPolicy⟩ := newPolicy_eq_ok isPolicy
  obtain ⟨rule', remapped, compiled⟩ := compile_remap (merged.renumbers rejects) rule isPolicy
  refine ⟨_, _, ?_, compileRules_concat compiled rules (compileRules_mono merged.grown rules isRules)⟩
  simp only [merge, isRule, remapped]
  rfl

mutual
def concerns : ConvertiblePolicy msp → Identity → Bool
  | .signature policy, ident => policy.envelope.rule.any (ruleConcerns msp policy.envelope.identities · ident)
  | .implicitMeta _ parts _, ident => concernsAny parts ident

def concernsAny : List (ConvertiblePolicy msp) → Identity → Bool
  | [], _ => false
  | policy :: policies, ident => concerns policy ident || concernsAny policies ident
end

mutual
/-- The rules are known, and unless the rule is ANY no identity of the list is of interest to two sub-policies of one
policy. -/
def Separated (who : List Identity) : ConvertiblePolicy msp → Prop
  | .signature _ => True
  | .implicitMeta rule parts _ => (rule = 0 ∨ rule = 1 ∨ rule = 2) ∧ SeparatedAll who rule parts

def SeparatedAll (who : List Identity) (rule : Int) : List (ConvertiblePolicy msp) → Prop
  | [] => True
  | policy :: policies => Separated who policy ∧ SeparatedAll who rule policies ∧
    (rule ≠ 0 → ∀ ident ∈ who, concerns policy ident → concernsAny policies ident = false)
end

/-- The policy converts into one that compiles, and that accepts as the policy itself does. -/
structure Converts (who : List Identity) (p : ConvertiblePolicy msp) (sig : SignaturePolicyEnvelope)
    (policy : Evaluator Identity) : Prop where
  converted : p.convert = .ok sig
  compiled : newPolicy msp sig = .ok policy
  isLocal : IsLocal (concerns p) policy who
  accepts : (policy who (who.map fun _ => false)).1 = isOk (p.evaluateIdentities who)

structure ConvertsAll (who : List Identity) (rule : Int) (parts : List (ConvertiblePolicy msp))
    (start end_ : List MSPPrincipal × List SignaturePolicy) (earlier policies : List (Evaluator Identity)) : Prop where
  converted : convertSubPolicies start parts = .ok end_
  compiled : compileRules msp end_.1 end_.2 = .ok (earlier ++ policies)
  isLocal : ∀ policy ∈ policies, IsLocal (concernsAny parts) policy who
  accepts : ∀ verified used, AgreeOn (concernsAny parts) who used (who.map fun _ => false) →
    let count := (evaluateSubPolicies who parts).countP isOk
    (rule ≠ 0 → (evaluateRules who policies verified used).1 = verified + count) ∧
      (verified < (evaluateRules who policies verified used).1 ↔ 0 < count)

theorem le_evaluateRules (who : List Identity) (policies : List (Evaluator Identity)) (verified : Int) (used : List Bool) :
    verified ≤ (evaluateRules who policies verified used).1 := by
  induction policies generalizing verified used with
  | nil => exact le_rfl
  | cons policy policies ih =>
    unfold evaluateRules
    split
    · exact (Int.le_add_one le_rfl).trans (ih _ _)
    · exact ih _ _

theorem isOk_eq_true {result : Result Unit} : isOk result = true ↔ result = .ok () := by
  cases result <;> simp [isOk, Except.toOption]

theorem length_evaluateSubPolicies : ∀ parts : List (ConvertiblePolicy msp), (evaluateSubPolicies who parts).length = parts.length
  | [] => rfl
  | _ :: parts => by simp [evaluateSubPolicies, length_evaluateSubPolicies parts]

theorem convertsAll_cons {sub : ConvertiblePolicy msp} {subs : List (ConvertiblePolicy msp)}
    {start next end_ : List MSPPrincipal × List SignaturePolicy} {earlier : List (Evaluator Identity)}
    (first : Converts who sub sig policy) (merged : merge start sig = .ok next)
    {rule : Int} (rest : ConvertsAll who rule subs next end_ (earlier ++ [policy]) policies)
    (apart : rule ≠ 0 → ∀ ident ∈ who, concerns sub ident → concernsAny subs ident = false) :
    ConvertsAll who rule (sub :: subs) start end_ earlier (policy :: policies) := by
  constructor
  · simp [convertSubPolicies, first.converted, merged, rest.converted, bind, Except.bind]
  · simpa using rest.compiled
  · intro other mem
    rcases mem_cons.mp mem with rfl | mem
    · exact first.isLocal.mono fun ident here => by simp [concernsAny, here]
    · exact (rest.isLocal other mem).mono fun ident there => by simp [concernsAny, there]
  · intro verified used agree
    have fresh : AgreeOn (concernsAny subs) who used (who.map fun _ => false) :=
      agree.mono fun ident _ there => by simp [concernsAny, there]
    obtain ⟨same, _⟩ := first.isLocal.reads _ _ (agree.mono fun ident _ here => by simp [concernsAny, here])
    have marks := first.isLocal.marks used agree.left
    rw [first.accepts] at same
    unfold evaluateRules evaluateSubPolicies
    cases ran : policy who used with
    | mk accepted used' =>
      rw [ran] at same marks
      simp only at same marks
      subst same
      cases accepted : isOk (sub.evaluateIdentities who) with
      | false =>
        rw [countP_cons_of_neg (by simp [accepted])]
        exact rest.accepts verified used fresh
      | true =>
        rw [countP_cons_of_pos accepted]
        have more := le_evaluateRules who policies (verified + 1) used'
        refine ⟨fun several => ?_, by simp; omega⟩
        have kept : AgreeOn (concernsAny subs) who used' used := marks.mono fun ident mem there => by
          cases here : concerns sub ident with
          | false => rfl
          | true => simp [apart several ident mem here] at there
        simp only [(rest.accepts (verified + 1) used' (kept.trans fresh)).1 several]
        omega

mutual
theorem converts (rejects : RejectsUnknown msp) : ∀ p : ConvertiblePolicy msp, Separated who p → ∃ sig policy, Converts who p sig policy
  | .signature policy, _ => by
    refine ⟨policy.envelope, policy.evaluator, rfl, policy.compiled, ?_, ?_⟩
    · obtain ⟨rule, isRule, compiled⟩ := newPolicy_eq_ok policy.compiled
      exact (compile_isLocal rule compiled).mono fun ident here => by simp [concerns, isRule, here]
    · unfold ConvertiblePolicy.evaluateIdentities evaluateIdentities
      cases (policy.evaluator who (who.map fun _ => false)).1 <;> rfl
  | .implicitMeta rule parts name, ⟨known, separated⟩ => by
    obtain ⟨⟨ids, rules⟩, policies, all⟩ := convertsAll rejects parts separated ([], []) [] rfl
    refine ⟨⟨0, some (.nOutOf (thresholdOf rule parts.length) rules), ids⟩,
      evaluateNOutOf (thresholdOf rule parts.length) policies, ?_, ?_, isLocal_nOutOf all.isLocal _, ?_⟩
    · simp only [ConvertiblePolicy.convert, all.converted]
      rfl
    · exact bind_eq_ok.mpr ⟨policies, all.compiled, rfl⟩
    · obtain ⟨count, any⟩ := all.accepts 0 _ ⟨by simp, by simp, fun _ _ _ _ => rfl⟩
      have lengths : (evaluateSubPolicies who parts).length = parts.length :=
        length_evaluateSubPolicies parts
      have met : ImplicitMetaPolicy.evaluate ⟨thresholdOf rule parts.length,
          evaluateSubPolicies who parts, name⟩ isOk = .ok () ↔ _ := evaluate_eq_ok known (by rw [lengths])
      rw [Bool.eq_iff_iff, isOk_eq_true]
      unfold ConvertiblePolicy.evaluateIdentities
      rw [met]
      simp only [evaluateNOutOf, decide_eq_true_eq, lengths, thresholdOf_eq_required known]
      by_cases several : rule = 0
      · have least := le_evaluateRules who policies 0 (who.map fun _ => false)
        simp only [required, several, if_true]
        split <;> omega
      · rw [count several]
        omega

theorem convertsAll (rejects : RejectsUnknown msp) : ∀ parts : List (ConvertiblePolicy msp),
    ∀ {rule : Int}, SeparatedAll who rule parts → ∀ start earlier, compileRules msp start.1 start.2 = .ok earlier →
    ∃ end_ policies, ConvertsAll who rule parts start end_ earlier policies
  | [], _, _, start, earlier, isRules => ⟨start, [], rfl, by simpa using isRules, nofun, fun _ _ _ => by simp [evaluateRules, evaluateSubPolicies]⟩
  | sub :: subs, _, ⟨here, there, apart⟩, start, earlier, isRules => by
    obtain ⟨sig, policy, first⟩ := converts rejects sub here
    obtain ⟨ids, rules, merged, isRules⟩ := merge_spec rejects isRules first.compiled
    obtain ⟨end_, policies, rest⟩ := convertsAll rejects subs there (ids, rules) _ isRules
    exact ⟨end_, policy :: policies, convertsAll_cons first merged rest apart⟩
end

theorem convert_preserves (rejects : RejectsUnknown msp) (p : ConvertiblePolicy msp) (ids : List Identity)
    (separated : Separated ids p) : ∃ sig policy, p.convert = .ok sig ∧ newPolicy msp sig = .ok policy ∧
    (p.evaluateIdentities ids = .ok () ↔ evaluateIdentities policy ids = .ok ()) := by
  obtain ⟨sig, policy, converted⟩ := converts rejects p separated
  refine ⟨sig, policy, converted.converted, converted.compiled, ?_⟩
  rw [← isOk_eq_true, ← converted.accepts]
  unfold evaluateIdentities
  split <;> simp_all

def roleMSP : MSP UInt8 where
  deserializeIdentity b := b.head?
  mspid _ := "Org"
  id b := toString b.toNat
  verify b _ signature := signature = [b]
  satisfiesPrincipal b p := p.principalClassification = 0 ∧ p.principal = [b]

def signedByRole (role : UInt8) : ConvertiblePolicy roleMSP :=
  .signature ⟨⟨0, some (.signedBy 0), [⟨0, [role]⟩]⟩, evaluateSignedBy (roleMSP.satisfiesPrincipal · ⟨0, [role]⟩), rfl⟩

theorem twoRoles_converted : ∃ sig policy,
    ConvertiblePolicy.convert (.implicitMeta 1 [signedByRole 1, signedByRole 2] "Writers") = .ok sig ∧
    newPolicy roleMSP sig = .ok policy ∧ evaluateIdentities policy [2, 1] = .ok () := by
  have rejects : RejectsUnknown roleMSP := by
    intro b p unknown
    simp only [roleMSP, decide_eq_false_iff_not]
    intro ⟨role, _⟩
    exact unknown ⟨by omega, by omega⟩
  obtain ⟨sig, policy, converted, compiled, same⟩ := convert_preserves rejects
    (.implicitMeta 1 [signedByRole 1, signedByRole 2] "Writers") [2, 1]
    ⟨.inr (.inl rfl), trivial, ⟨trivial, trivial, fun _ => by decide +kernel⟩, fun _ => by decide +kernel⟩
  exact ⟨sig, policy, converted, compiled, same.mp rfl⟩

theorem sharedRole_not_converted : ∃ sig policy,
    ConvertiblePolicy.convert (.implicitMeta 1 [signedByRole 1, signedByRole 1] "Writers") = .ok sig ∧
    newPolicy roleMSP sig = .ok policy ∧
    ConvertiblePolicy.evaluateIdentities [1] (.implicitMeta 1 [signedByRole 1, signedByRole 1] "Writers") = .ok () ∧
    evaluateIdentities policy [1] ≠ .ok () :=
  ⟨_, _, rfl, rfl, rfl, nofun⟩

end Fabric.Proof.Policies
