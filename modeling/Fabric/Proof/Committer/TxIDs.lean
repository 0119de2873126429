import Fabric.Committer.TxValidator
import Fabric.Proof.Blkstorage.TxIDIndex

/-! # A transaction id is valid at most once -/

namespace Fabric.Proof.Committer

open Lib Fabric.Ledger Fabric.Blkstorage Fabric.Committer Proof.Blkstorage List
open Option hiding or_assoc

variable {env : Envelopes} {p q : Peer} {block : BlockInput}
  {i n : Nat} {α : Type} {d : Bytes} {seen : Finset Bytes} {before after committed : List CommittedTx}

def endorserTxID (env : Envelopes) (data : Option Bytes) : Option Bytes :=
  (data.bind env.unmarshalEnvelope).bind fun e => e.channelHeader.bind fun chdr =>
    if chdr.type = .endorserTransaction then some chdr.txId else none

def isValidWith (env : Envelopes) (id : Bytes) (tx : CommittedTx) : Bool :=
  endorserTxID env tx.data == some id && tx.flag == .valid

def Occurs (env : Envelopes) (snapshot : List Bytes) (txs : List CommittedTx) (id : Bytes) : Prop :=
  id ∈ snapshot ∨ ∃ tx ∈ txs, indexedTxID env tx.data = id

structure UniqueTxIDs (env : Envelopes) (snapshot : List Bytes) (txs : List CommittedTx) : Prop where
  once : ∀ id, txs.countP (isValidWith env id) + (if id ∈ snapshot then 1 else 0) ≤ 1
  first : ∀ before tx after, txs = before ++ tx :: after → tx.flag = .duplicateTxid →
    ∃ id, endorserTxID env tx.data = some id ∧ Occurs env snapshot before id

def ResultsInAnyOrder (_ : Peer) (block : BlockInput) : Prop := block.order.Perm (List.range block.data.length)

structure CheckedTx where
  data : Option Bytes
  txid : Bytes
  code : TxValidationCode

def outcomeCode : ValidationOutcome → TxValidationCode
  | .err _ => .notValidated
  | .code validationCode _ => validationCode

def outcomeTxID : ValidationOutcome → Bytes
  | .err _ => []
  | .code validationCode txid => if validationCode = .valid then txid else []

variable {txExists : Bytes → Bool} {checks : TxChecks} {e : Envelope} {chdr : ChannelHeader} {ts : List CheckedTx}
  {id : Bytes} {tx : CommittedTx} {marked : List CommittedTx} {data : Option Bytes}

theorem add_err {c : Collected} {o : ValidationOutcome} (none : (c.add i o).err = none) :
    c.err = .none ∧ ∃ code txid, o = .code code txid := by
  unfold Collected.add at none
  cases o with
  | err msg =>
    simp only at none
    split at none
    · cases none
    · split at none <;> simp_all
  | code validationCode txid => exact ⟨none, validationCode, txid, rfl⟩

theorem txsfltr_add_code (c : Collected) (i : Nat) (code : TxValidationCode) (txid : Bytes) :
    (c.add i (.code code txid)).txsfltr = c.txsfltr.set i code := rfl

theorem txidArray_add_code (c : Collected) (i : Nat) (code : TxValidationCode) (txid : Bytes) :
    (c.add i (.code code txid)).txidArray = if code = .valid then c.txidArray.set i txid else c.txidArray := rfl

theorem set_map_range {f g : Nat → α} (a : α) (new : i < n → g i = a) (others : ∀ j ≠ i, g j = f j)
    : ((List.range n).map f).set i a = (List.range n).map g := by
  apply List.ext_getElem?
  intro j
  simp only [getElem?_set, length_map, length_range, List.getElem?_map]
  by_cases same : i = j
  · subst same
    by_cases small : i < n
    · simp [small, new small]
    · simp [small]
  · by_cases small : j < n
    · simp [same, small, others j (Ne.symm same)]
    · simp [same, small]

theorem collect_spec (outcome : Nat → ValidationOutcome) {order : List Nat}
    (fine : (order.foldl (fun c i => c.add i (outcome i)) (newCollected n)).err = none) :
    (order.foldl (fun c i => c.add i (outcome i)) (newCollected n)).txsfltr =
        (List.range n).map (fun i => if i ∈ order then outcomeCode (outcome i) else .notValidated) ∧
      (order.foldl (fun c i => c.add i (outcome i)) (newCollected n)).txidArray =
        (List.range n).map (fun i => if i ∈ order then outcomeTxID (outcome i) else []) := by
  induction order using reverseRecOn with
  | nil => simp [newCollected, map_const']
  | append_singleton order i ih =>
    rw [foldl_append, foldl_cons, foldl_nil] at fine ⊢
    obtain ⟨before, code, txid, here⟩ := add_err fine
    obtain ⟨codes, ids⟩ := ih before
    rw [here, txsfltr_add_code, txidArray_add_code, codes, ids]
    constructor
    · apply set_map_range
      · simp [here, outcomeCode]
      · intro j different
        simp [different]
    · split
      · rename_i valid
        apply set_map_range
        · simp [here, outcomeTxID, valid]
        · intro j different
          simp [different]
      · rename_i invalid
        apply map_congr_left
        intro j _
        by_cases same : j = i
        · subst same
          simp [here, outcomeTxID, invalid]
        · simp [same]

def checkedTx (env : Envelopes) (txExists : Bytes → Bool) (block : BlockInput) (i : Nat) : CheckedTx :=
  let o := validateTx env txExists (block.checks i) (block.data[i]?.getD none)
  ⟨block.data[i]?.getD none, outcomeTxID o, outcomeCode o⟩

theorem validate_eq_ok {flags : List TxValidationCode} (perm : block.order.Perm (List.range block.data.length))
    (ran : validate env txExists block = .ok flags) :
    flags = markDuplicates ∅ (((List.range block.data.length).map (checkedTx env txExists block)).map fun t => (t.txid, t.code)) := by
  simp only [validate] at ran
  split at ran
  · cases ran
  · rename_i fine
    split at ran
    · cases ran
    · cases ran
      obtain ⟨codes, ids⟩ := collect_spec _ fine
      rw [codes, ids, markTXIdDuplicates, zip_map']
      congr 1
      simp only [List.map_map]
      apply map_congr_left
      intro i mem
      have listed : i ∈ block.order := perm.symm.subset mem
      simp [listed, checkedTx]

structure CheckedSpec (env : Envelopes) (txExists : Bytes → Bool) (t : CheckedTx) : Prop where
  identified : t.txid ≠ [] → endorserTxID env t.data = some t.txid ∧ indexedTxID env t.data = t.txid
  fresh : t.code = .valid → ∀ id, endorserTxID env t.data = some id → t.txid = id ∧ id ≠ [] ∧ txExists id = false
  known : t.code = .duplicateTxid → ∃ id, endorserTxID env t.data = some id ∧ txExists id = true

theorem validateTransaction_ok (ran : validateTransaction env checks e = .ok chdr) :
    e.channelHeader = some chdr ∧ (chdr.type = .endorserTransaction → chdr.txId ≠ []) := by
  unfold validateTransaction at ran
  split at ran
  · cases ran
  · rename_i payload hasPayload
    split at ran
    · cases ran
    · rename_i chdr' shdr common
      obtain ⟨hdr, hasHeader, common⟩ := bind_eq_some_iff.mp common
      obtain ⟨chdr'', hasChannelHeader, common⟩ := bind_eq_some_iff.mp common
      obtain ⟨shdr', -, common⟩ := bind_eq_some_iff.mp common
      simp only [ite_none_right_eq_some, some.injEq, Prod.mk.injEq] at common
      obtain ⟨-, rfl, rfl⟩ := common
      have header : e.channelHeader = some chdr'' := by
        simp [Envelope.channelHeader, Envelope.header, hasPayload, hasHeader, hasChannelHeader]
      split at ran
      · cases ran
      · split at ran
        · rename_i endorser
          split at ran
          · cases ran
          · rename_i computed
            split at ran
            · cases ran
            · cases ran
              refine ⟨header, fun _ => ?_⟩
              rw [not_not.mp computed]
              exact env.computeTxID_ne_nil _ _
        · rename_i config
          split at ran
          · cases ran
          · cases ran
            exact ⟨header, fun endorser => by simp [config] at endorser⟩
        · cases ran

theorem indexedTxID_of_header (decoded : env.unmarshalEnvelope d = some e) (header : e.channelHeader = some chdr)
    (nonempty : chdr.txId ≠ []) : indexedTxID env (some d) = chdr.txId := by
  obtain ⟨hdr, hasHeader, hasChannelHeader⟩ := bind_eq_some_iff.mp header
  simp [indexedTxID, Envelopes.getOrComputeTxIDFromEnvelope, decoded, hasHeader, hasChannelHeader, nonempty]

theorem dispatchOutcome_invalid (failure : DispatchError) :
    outcomeTxID (dispatchOutcome failure) = [] ∧ outcomeCode (dispatchOutcome failure) ≠ .valid ∧
      outcomeCode (dispatchOutcome failure) ≠ .duplicateTxid := by
  cases failure <;> simp [dispatchOutcome, outcomeTxID, outcomeCode]

theorem validateTransaction_error {code : TxValidationCode}
    (rejected : validateTransaction env checks e = .error code) : code ≠ .valid ∧ code ≠ .duplicateTxid := by
  unfold validateTransaction at rejected
  repeat' split at rejected
  all_goals cases rejected
  all_goals simp

theorem CheckedSpec.of_other {t : CheckedTx} (noID : t.txid = []) (invalid : t.code ≠ .valid)
    (notDuplicate : t.code ≠ .duplicateTxid) : CheckedSpec env txExists t :=
  ⟨fun nonempty => absurd noID nonempty, fun valid => absurd valid invalid, fun duplicate => absurd duplicate notDuplicate⟩

theorem checkedSpec_of_endorser (decoded : env.unmarshalEnvelope d = some e) (header : e.channelHeader = some chdr)
    (endorser : chdr.type = .endorserTransaction) (nonempty : chdr.txId ≠ []) :
    let o := (validateEndorserTx txExists checks chdr).getD
      (if checks.marshals then .code .valid chdr.txId else .code .marshalTxError [])
    CheckedSpec env txExists ⟨some d, outcomeTxID o, outcomeCode o⟩ := by
  have id : endorserTxID env (some d) = some chdr.txId := by simp [endorserTxID, decoded, header, endorser]
  have indexed := indexedTxID_of_header decoded header nonempty
  unfold validateEndorserTx
  split
  · exact .of_other rfl (by simp [outcomeCode]) (by simp [outcomeCode])
  · split
    · rename_i present
      refine ⟨by simp [outcomeTxID], by simp [outcomeCode], fun _ => ⟨_, id, present⟩⟩
    · rename_i absent
      cases checks.dispatch with
      | some failure =>
        obtain ⟨noID, invalid, notDuplicate⟩ := dispatchOutcome_invalid failure
        exact .of_other noID invalid notDuplicate
      | none =>
        cases checks.marshals with
        | false => exact .of_other rfl (by simp [outcomeCode]) (by simp [outcomeCode])
        | true =>
          refine ⟨fun _ => ⟨id, indexed⟩, ?_, by simp [outcomeCode]⟩
          intro _ other same
          obtain rfl : chdr.txId = other := some.inj (id.symm.trans same)
          exact ⟨rfl, nonempty, by simpa using absent⟩

theorem checkedTx_spec (txExists : Bytes → Bool) (block : BlockInput) (i : Nat) :
    CheckedSpec env txExists (checkedTx env txExists block i) := by
  unfold checkedTx
  generalize block.data[i]?.getD none = data
  cases data with
  | none =>
    refine ⟨by simp [validateTx, outcomeTxID], ?_, by simp [validateTx, outcomeCode]⟩
    intro _ id endorser
    simp [endorserTxID] at endorser
  | some d =>
    simp only [validateTx]
    cases decoded : env.unmarshalEnvelope d with
    | none => exact .of_other rfl (by simp [outcomeCode]) (by simp [outcomeCode])
    | some e =>
      simp only
      cases ran : validateTransaction env (block.checks i) e with
      | error code =>
        obtain ⟨invalid, notDuplicate⟩ := validateTransaction_error ran
        exact .of_other (by simp [outcomeTxID, invalid]) invalid notDuplicate
      | ok chdr =>
        obtain ⟨header, nonempty⟩ := validateTransaction_ok ran
        simp only
        split
        · rename_i endorser
          exact checkedSpec_of_endorser decoded header endorser (nonempty endorser)
        · rename_i config
          have noID : endorserTxID env (some d) = none := by simp [endorserTxID, decoded, header, config]
          cases (block.checks i).configFailure with
          | some msg => exact .of_other rfl (by simp [outcomeCode]) (by simp [outcomeCode])
          | none =>
            refine ⟨?_, ?_, ?_⟩
            · cases (block.checks i).marshals <;> simp [outcomeTxID]
            · simp [noID]
            · cases (block.checks i).marshals <;> simp [outcomeCode]
        · exact .of_other rfl (by simp [outcomeCode]) (by simp [outcomeCode])

def markChecked (seen : Finset Bytes) : List CheckedTx → List CommittedTx
  | [] => []
  | t :: rest =>
    if t.txid = [] then ⟨t.data, t.code⟩ :: markChecked seen rest
    else if t.txid ∈ seen then ⟨t.data, .duplicateTxid⟩ :: markChecked seen rest
    else ⟨t.data, t.code⟩ :: markChecked (insert t.txid seen) rest

section

variable (specs : ∀ t ∈ ts, CheckedSpec env txExists t)
include specs

theorem countP_markChecked (seen : Finset Bytes) (id : Bytes) :
    (markChecked seen ts).countP (isValidWith env id) ≤ if id ∈ seen then 0 else 1 := by
  induction ts generalizing seen with
  | nil => simp [markChecked]
  | cons t rest ih =>
    have later := fun seen => ih (fun t mem => specs t (mem_cons_of_mem _ mem)) seen
    have spec := specs t mem_cons_self
    have own : isValidWith env id ⟨t.data, t.code⟩ = true → t.txid = id ∧ id ≠ [] := by
      intro counted
      simp only [isValidWith, Bool.and_eq_true, beq_iff_eq] at counted
      obtain ⟨same, nonempty, -⟩ := spec.fresh counted.2 id counted.1
      exact ⟨same, nonempty⟩
    unfold markChecked
    split
    · rename_i noID
      rw [countP_cons_of_neg (fun counted => (own counted).2 (by rw [← (own counted).1, noID]))]
      exact later seen
    · split
      · rw [countP_cons_of_neg (by simp [isValidWith])]
        exact later seen
      · rename_i unseen
        have rest := later (insert t.txid seen)
        by_cases counted : isValidWith env id ⟨t.data, t.code⟩ = true
        · rw [countP_cons_of_pos counted]
          obtain ⟨rfl, -⟩ := own counted
          simp_all
        · rw [countP_cons_of_neg counted]
          refine rest.trans ?_
          split_ifs with h1 h2 <;> simp_all

theorem fresh_of_markChecked (listed : tx ∈ markChecked seen ts) (valid : isValidWith env id tx = true) : id ≠ [] ∧ txExists id = false := by
  induction ts generalizing seen with
  | nil => simp [markChecked] at listed
  | cons t rest ih =>
    have later : ∀ seen, tx ∈ markChecked seen rest → id ≠ [] ∧ txExists id = false :=
      fun seen mem => ih (fun t mem => specs t (mem_cons_of_mem _ mem)) mem
    have here : tx = ⟨t.data, t.code⟩ → id ≠ [] ∧ txExists id = false := by
      intro same
      simp only [isValidWith, same, Bool.and_eq_true, beq_iff_eq] at valid
      exact ((specs t mem_cons_self).fresh valid.2 id valid.1).2
    unfold markChecked at listed
    split at listed
    · cases mem_cons.mp listed with
      | inl same => exact here same
      | inr after => exact later _ after
    · split at listed
      · cases mem_cons.mp listed with
        | inl same => simp [isValidWith, same] at valid
        | inr after => exact later _ after
      · cases mem_cons.mp listed with
        | inl same => exact here same
        | inr after => exact later _ after

theorem duplicate_of_markChecked (split : markChecked seen ts = before ++ tx :: after) (duplicate : tx.flag = .duplicateTxid) :
    ∃ id, endorserTxID env tx.data = some id ∧ (txExists id = true ∨ id ∈ seen ∨ ∃ u ∈ before, indexedTxID env u.data = id) := by
  induction ts generalizing seen before with
  | nil => simp [markChecked] at split
  | cons t rest ih =>
    have spec := specs t mem_cons_self
    have later : ∀ seen before, markChecked seen rest = before ++ tx :: after → _ :=
      fun seen before split => ih (fun t mem => specs t (mem_cons_of_mem _ mem)) split
    -- The transaction is the one in front or one of the rest, marked with the ids seen by then.
    have cases_of : ∀ flag seen', ⟨t.data, flag⟩ :: markChecked seen' rest = before ++ tx :: after →
        (flag = .duplicateTxid → ∃ id, endorserTxID env t.data = some id ∧ (txExists id = true ∨ id ∈ seen)) →
        (∀ id ∈ seen', id ∈ seen ∨ indexedTxID env t.data = id) →
        ∃ id, endorserTxID env tx.data = some id ∧ (txExists id = true ∨ id ∈ seen ∨ ∃ u ∈ before, indexedTxID env u.data = id) := by
      intro flag seen' split front grown
      cases before with
      | nil =>
        simp only [nil_append, List.cons.injEq] at split
        obtain ⟨rfl, -⟩ := split
        obtain ⟨id, endorser, known⟩ := front duplicate
        exact ⟨id, endorser, known.imp_right .inl⟩
      | cons u before =>
        simp only [cons_append, List.cons.injEq] at split
        obtain ⟨rfl, rest⟩ := split
        obtain ⟨id, endorser, known | present | ⟨u, mem, same⟩⟩ := later seen' before rest
        · exact ⟨id, endorser, .inl known⟩
        · refine ⟨id, endorser, .inr ?_⟩
          cases grown id present with
          | inl old => exact .inl old
          | inr new => exact .inr ⟨_, mem_cons_self, new⟩
        · exact ⟨id, endorser, .inr (.inr ⟨u, mem_cons_of_mem _ mem, same⟩)⟩
    have known : t.code = .duplicateTxid → ∃ id, endorserTxID env t.data = some id ∧ (txExists id = true ∨ id ∈ seen) := by
      intro duplicate
      obtain ⟨id, endorser, exists_⟩ := spec.known duplicate
      exact ⟨id, endorser, .inl exists_⟩
    unfold markChecked at split
    split at split
    · exact cases_of _ _ split known fun id mem => .inl mem
    · rename_i nonempty
      obtain ⟨endorser, indexed⟩ := spec.identified nonempty
      split at split
      · rename_i present
        exact cases_of _ _ split (fun _ => ⟨_, endorser, .inr present⟩) fun id mem => .inl mem
      · refine cases_of _ _ split known ?_
        intro id mem
        cases Finset.mem_insert.mp mem with
        | inl own => exact .inr (own ▸ indexed)
        | inr old => exact .inl old

end

-- The checks at commit turn valid transactions into invalid ones, never into duplicates.
structure Weakened (marked committed : CommittedTx) : Prop where
  data : committed.data = marked.data
  valid : committed.flag = .valid → marked.flag = .valid
  duplicate : committed.flag = .duplicateTxid → marked.flag = .duplicateTxid

theorem weakened_stateFlag (checks : TxChecks) (tx : CommittedTx) : Weakened tx ⟨tx.data, stateFlag checks tx.flag⟩ := by
  unfold stateFlag
  split
  · rename_i valid
    refine ⟨rfl, fun _ => valid, ?_⟩
    cases checks.validateState with
    | none => simp
    | some rejection => cases rejection <;> simp [StateRejection.code]
  · exact ⟨rfl, id, id⟩

theorem weakened_committed (checks : Nat → TxChecks) (seen : Finset Bytes) (ts : List CheckedTx) (k : Nat) :
    List.Forall₂ Weakened (markChecked seen ts)
      (((ts.map (·.data)).zip (((markDuplicates seen (ts.map fun t => (t.txid, t.code))).zipIdx k).map
        fun f => stateFlag (checks f.2) f.1)).map fun t => ⟨t.1, t.2⟩) := by
  induction ts generalizing seen k with
  | nil => exact .nil
  | cons t rest ih =>
    have front := weakened_stateFlag (checks k)
    simp only [map_cons, markDuplicates, markChecked]
    split
    · exact .cons (front ⟨t.data, t.code⟩) (ih seen (k + 1))
    · split
      · exact .cons (front ⟨t.data, .duplicateTxid⟩) (ih seen (k + 1))
      · exact .cons (front ⟨t.data, t.code⟩) (ih (insert t.txid seen) (k + 1))

theorem countP_of_weakened (weakened : List.Forall₂ Weakened marked committed) (id : Bytes)
    : committed.countP (isValidWith env id) ≤ marked.countP (isValidWith env id) := by
  induction weakened with
  | nil => exact Nat.le_refl _
  | @cons m c marked committed here _ ih =>
    have implied : isValidWith env id c = true → isValidWith env id m = true := by
      intro counted
      simp only [isValidWith, Bool.and_eq_true, beq_iff_eq, here.data] at counted ⊢
      exact ⟨counted.1, here.valid counted.2⟩
    simp only [countP_cons]
    split_ifs <;> simp_all
    omega

theorem split_of_weakened (weakened : List.Forall₂ Weakened marked (before ++ tx :: after)) :
    ∃ before' tx' after', marked = before' ++ tx' :: after' ∧ Weakened tx' tx ∧ ∀ u ∈ before', ∃ v ∈ before, v.data = u.data := by
  induction before generalizing marked with
  | nil =>
    cases weakened with
    | @cons m c marked committed here rest => exact ⟨[], m, marked, rfl, here, by simp⟩
  | cons v before ih =>
    cases weakened with
    | @cons m c marked committed here rest =>
      obtain ⟨before', tx', after', split, front, earlier⟩ := ih rest
      refine ⟨m :: before', tx', after', by rw [split, cons_append], front, ?_⟩
      intro u mem
      cases mem_cons.mp mem with
      | inl own => exact ⟨v, mem_cons_self, own ▸ here.data⟩
      | inr later =>
        obtain ⟨w, listed, same⟩ := earlier u later
        exact ⟨w, mem_cons_of_mem _ listed, same⟩

theorem map_data_markChecked (seen : Finset Bytes) (ts : List CheckedTx) : (markChecked seen ts).map (·.data) = ts.map (·.data) := by
  induction ts generalizing seen with
  | nil => rfl
  | cons t rest ih =>
    unfold markChecked
    split
    · simp [ih]
    · split <;> simp [ih]

theorem map_data_of_weakened (weakened : List.Forall₂ Weakened marked committed) : committed.map (·.data) = marked.map (·.data) := by
  induction weakened with
  | nil => rfl
  | cons here _ ih => simp [here.data, ih]

structure CommitsBlock (env : Envelopes) (p : Peer) (block : BlockInput) (q : Peer) (ts : List CheckedTx)
    (new : List CommittedTx) : Prop where
  appended : q.txs = p.txs ++ new
  data : new.map (·.data) = block.data
  specs : ∀ t ∈ ts, CheckedSpec env p.index.txIDExists t
  weakened : List.Forall₂ Weakened (markChecked ∅ ts) new
  indexed : ∃ info, p.index.indexBlock info = .ok q.index ∧ info.txOffsets.map (·.txID) = block.data.map (indexedTxID env)

theorem storeBlock_spec (perm : block.order.Perm (List.range block.data.length)) (stored : p.storeBlock env block = .ok q) :
    ∃ ts new, CommitsBlock env p block q ts new := by
  obtain ⟨flags, ran, stored⟩ := bind_eq_ok.mp stored
  obtain ⟨index, indexed, stored⟩ := bind_eq_ok.mp stored
  cases stored
  have marks := validate_eq_ok perm ran
  have data : ((List.range block.data.length).map (checkedTx env p.index.txIDExists block)).map (·.data) = block.data := by
    apply List.ext_getElem?
    intro i
    simp only [List.map_map, List.getElem?_map, checkedTx, Function.comp_def]
    by_cases small : i < block.data.length
    · simp [small]
    · simp [small]
  have weakened := weakened_committed block.checks ∅ ((List.range block.data.length).map (checkedTx env p.index.txIDExists block)) 0
  rw [data, ← marks] at weakened
  refine ⟨_, _, rfl, ?_, ?_, weakened, _, indexed, ?_⟩
  · rw [map_data_of_weakened weakened, map_data_markChecked, data]
  · intro t mem
    obtain ⟨i, _, rfl⟩ := List.mem_map.mp mem
    exact checkedTx_spec _ _ _
  · simp only [blockIdxInfo, List.map_map, Function.comp_def]
    conv_rhs => rw [← zipIdx_map_fst 0 block.data, List.map_map]
    rfl

theorem indexedTxID_fits (data : Option Bytes) : (indexedTxID env data).length < 2 ^ 64 := by
  unfold indexedTxID Envelopes.getOrComputeTxIDFromEnvelope
  split
  · simp
  · rename_i header decoded
    split
    · simp
    · rename_i chdr hasChannelHeader
      split
      · obtain ⟨e, unmarshalled, hasHeader⟩ := bind_eq_some_iff.mp decoded
        exact env.txId_fits _ e chdr unmarshalled (by simp [Envelope.channelHeader, hasHeader, hasChannelHeader])
      · split
        · simp
        · exact env.computeTxID_fits _ _

theorem header_of_endorserTxID (endorser : endorserTxID env data = some id) :
    ∃ d e chdr, data = some d ∧ env.unmarshalEnvelope d = some e ∧ e.channelHeader = some chdr ∧ chdr.txId = id := by
  obtain ⟨e, decoded, found⟩ := bind_eq_some_iff.mp endorser
  obtain ⟨d, present, decoded⟩ := bind_eq_some_iff.mp decoded
  obtain ⟨chdr, header, found⟩ := bind_eq_some_iff.mp found
  simp only [ite_none_right_eq_some, some.injEq] at found
  exact ⟨d, e, chdr, present, decoded, header, found.2⟩

theorem endorserTxID_fits (endorser : endorserTxID env data = some id) : id.length < 2 ^ 64 := by
  obtain ⟨d, e, chdr, -, decoded, header, rfl⟩ := header_of_endorserTxID endorser
  exact env.txId_fits d e chdr decoded header

theorem append_split {xs ys before after : List α} {x : α} (split : xs ++ ys = before ++ x :: after) :
    (∃ rest, xs = before ++ x :: rest) ∨ ∃ rest, before = xs ++ rest ∧ ys = rest ++ x :: after := by
  rcases append_eq_append_iff.mp split with ⟨rest, start, last⟩ | ⟨rest, start, last⟩
  · exact .inr ⟨rest, start, last⟩
  · cases rest with
    | nil => exact .inr ⟨[], by simpa using start.symm, by simpa using last.symm⟩
    | cons y rest =>
      simp only [cons_append, List.cons.injEq] at last
      exact .inl ⟨rest, last.1 ▸ start⟩

theorem indexedTxID_of_endorser (endorser : endorserTxID env data = some id) (nonempty : id ≠ []) : indexedTxID env data = id := by
  obtain ⟨d, e, chdr, rfl, decoded, header, rfl⟩ := header_of_endorserTxID endorser
  exact indexedTxID_of_header decoded header nonempty

structure Recorded (env : Envelopes) (snapshot : List Bytes) (p : Peer) : Prop where
  unique : UniqueTxIDs env snapshot p.txs
  index : HoldsTxIDs (Occurs env snapshot p.txs) p.index

theorem Recorded.step {snapshot : List Bytes} (recorded : Recorded env snapshot p) {new : List CommittedTx}
    (commits : CommitsBlock env p block q ts new) : Recorded env snapshot q := by
  obtain ⟨info, indexed, offsets⟩ := commits.indexed
  have exists_iff : ∀ {id}, id.length < 2 ^ 64 → (p.index.txIDExists id = true ↔ Occurs env snapshot p.txs id) :=
    fun fits => recorded.index.txIDExists_iff fits
  constructor
  · rw [commits.appended]
    constructor
    · intro id
      rw [countP_append]
      have atMostOne : new.countP (isValidWith env id) ≤ 1 := by
        simpa using (countP_of_weakened commits.weakened id).trans (countP_markChecked commits.specs ∅ id)
      by_cases none : new.countP (isValidWith env id) = 0
      · rw [none, Nat.add_zero]
        exact recorded.unique.once id
      · -- A transaction of the block is valid under the id, so the id does not occur before.
        have counted := Nat.pos_of_ne_zero fun zero => none (Nat.le_zero.mp
          (zero ▸ countP_of_weakened commits.weakened id))
        obtain ⟨tx, listed, valid⟩ := countP_pos_iff.mp counted
        obtain ⟨nonempty, fresh⟩ := fresh_of_markChecked commits.specs listed valid
        simp only [isValidWith, Bool.and_eq_true, beq_iff_eq] at valid
        have unknown : ¬ Occurs env snapshot p.txs id := by
          rw [← exists_iff (endorserTxID_fits valid.1), fresh]
          simp
        have before : p.txs.countP (isValidWith env id) = 0 := by
          rw [countP_eq_zero]
          intro old mem counted
          simp only [isValidWith, Bool.and_eq_true, beq_iff_eq] at counted
          exact unknown (.inr ⟨old, mem, indexedTxID_of_endorser counted.1 nonempty⟩)
        have outside : id ∉ snapshot := fun mem => unknown (.inl mem)
        simp [before, outside, atMostOne]
    · intro before tx after split duplicate
      rcases append_split split with ⟨rest, old⟩ | ⟨rest, start, last⟩
      · exact recorded.unique.first before tx rest old duplicate
      · obtain ⟨before', tx', after', marked, weak, earlier⟩ := split_of_weakened (last ▸ commits.weakened)
        obtain ⟨id, endorser, known⟩ := duplicate_of_markChecked commits.specs marked (weak.duplicate duplicate)
        rw [← weak.data] at endorser
        refine ⟨id, endorser, ?_⟩
        rcases known with present | seen | ⟨u, mem, same⟩
        · rcases (exists_iff (endorserTxID_fits endorser)).mp present with imported | ⟨old, mem, same⟩
          · exact .inl imported
          · exact .inr ⟨old, by simp [start, mem], same⟩
        · cases seen
        · obtain ⟨v, listed, data⟩ := earlier u mem
          exact .inr ⟨v, by simp [start, listed], data ▸ same⟩
  · have fits : ∀ t ∈ info.txOffsets, t.txID.length < 2 ^ 64 := by
      intro t mem
      have listed : t.txID ∈ block.data.map (indexedTxID env) := offsets ▸ List.mem_map_of_mem mem
      obtain ⟨data, -, same⟩ := List.mem_map.mp listed
      exact same ▸ indexedTxID_fits data
    have holds := holdsTxIDs_indexBlock recorded.index fits indexed
    have same : (fun id => Occurs env snapshot p.txs id ∨ ∃ t ∈ info.txOffsets, t.txID = id) = Occurs env snapshot q.txs := by
      funext id
      have added : (∃ t ∈ info.txOffsets, t.txID = id) ↔ ∃ tx ∈ new, indexedTxID env tx.data = id := by
        rw [← List.mem_map (f := TxindexInfo.txID), offsets, ← commits.data, List.map_map, List.mem_map]
        rfl
      simp [added, Occurs, commits.appended, or_and_right, exists_or, or_assoc]
    exact same ▸ holds

theorem occurs_nil (snapshot : List Bytes) : Occurs env snapshot [] = fun id => id ∈ snapshot := by
  funext id
  simp [Occurs]

theorem recorded_newPeer (start : Committer.Start) : Recorded env start.txIDs (newPeer start) := by
  cases start with
  | genesis =>
    refine ⟨⟨by simp [newPeer, Committer.Start.txIDs], by simp [newPeer]⟩, ?_⟩
    simpa [newPeer, Committer.Start.txIDs, occurs_nil] using holdsTxIDs_empty
  | snapshot txIDs lastBlockNum fits =>
    refine ⟨⟨?_, by simp [newPeer]⟩, ?_⟩
    · intro id
      simp only [newPeer, countP_nil, Nat.zero_add]
      split <;> omega
    · simpa [newPeer, Committer.Start.txIDs, occurs_nil] using holdsTxIDs_import fits lastBlockNum

/-- On every chain that a peer commits, an id is valid at most once and its first occurrence is no duplicate. -/
theorem txID_valid_at_most_once (env : Envelopes) (start : Committer.Start) {blocks : List BlockInput} {p : Peer}
    (run : Reaches (Peer.step env) ResultsInAnyOrder (newPeer start) blocks p) : UniqueTxIDs env start.txIDs p.txs := by
  have recorded : Recorded env start.txIDs p := by
    apply run.invariant (fun _ p => Recorded env start.txIDs p) (recorded_newPeer start)
    intro _ p block q recorded perm taken
    have stored : p.storeBlock env block = .ok q := by
      unfold Peer.step at taken
      cases result : p.storeBlock env block with
      | error failure => simp [result, Except.toOption] at taken
      | ok q' =>
        simp only [result, Except.toOption, some.injEq] at taken
        rw [taken]
    obtain ⟨ts, new, commits⟩ := storeBlock_spec perm stored
    exact recorded.step commits
  exact recorded.unique

def plainEnvelopes : Envelopes where
  unmarshalEnvelope d := d.head?.map fun n => ⟨some ⟨some ⟨some ⟨.endorserTransaction, 0, [n]⟩, some ⟨[1], [n]⟩⟩, none⟩⟩
  computeTxID nonce _ := [nonce.headD 0]
  computeTxID_ne_nil := by simp
  computeTxID_fits := by simp
  txId_fits := by
    intro b e chdr decoded header
    obtain ⟨n, -, rfl⟩ := map_eq_some_iff.mp decoded
    cases header
    simp

def acceptedTx : TxChecks := ⟨true, true, none, none, none, true, none⟩

def repeatedBlock (order : List Nat) : BlockInput :=
  ⟨[some [7], some [8], some [7]], fun _ => acceptedTx, order, [], ⟨0, 0, 0⟩, fun _ => ⟨0, 0⟩⟩

theorem repeatedTxID_valid_once :
    ∃ p, Reaches (Peer.step plainEnvelopes) ResultsInAnyOrder (newPeer (.snapshot [[8]] 5 (by simp)))
      [repeatedBlock [2, 0, 1], repeatedBlock [0, 1, 2]] p ∧
      p.txs.map (·.flag) = [.valid, .duplicateTxid, .duplicateTxid, .duplicateTxid, .duplicateTxid, .duplicateTxid] ∧
      UniqueTxIDs plainEnvelopes [[8]] p.txs := by
  have shuffled : ∀ p, ResultsInAnyOrder p (repeatedBlock [2, 0, 1]) := fun _ =>
    show [2, 0, 1].Perm (List.range 3) by decide
  have inOrder : ∀ p, ResultsInAnyOrder p (repeatedBlock [0, 1, 2]) := fun _ =>
    show [0, 1, 2].Perm (List.range 3) by decide
  have evaluated : (((newPeer (.snapshot [[8]] 5 (by simp))).step plainEnvelopes (repeatedBlock [2, 0, 1])).bind fun p =>
      (p.step plainEnvelopes (repeatedBlock [0, 1, 2])).map fun q => q.txs.map (·.flag)) =
        some [.valid, .duplicateTxid, .duplicateTxid, .duplicateTxid, .duplicateTxid, .duplicateTxid] := by decide +kernel
  obtain ⟨p, first, later⟩ := bind_eq_some_iff.mp evaluated
  obtain ⟨q, second, flags⟩ := map_eq_some_iff.mp later
  have run : Reaches (Peer.step plainEnvelopes) ResultsInAnyOrder (newPeer (.snapshot [[8]] 5 (by simp)))
      [repeatedBlock [2, 0, 1], repeatedBlock [0, 1, 2]] q :=
    .next (.next .start (shuffled _) first) (inOrder _) second
  exact ⟨q, run, flags, txID_valid_at_most_once plainEnvelopes (.snapshot [[8]] 5 (by simp)) run⟩

end Fabric.Proof.Committer
