import Fabric.Gossip.State

/-! # Blocks reach the ledger in order -/

namespace Fabric.Proof.Gossip

open Lib Fabric.Ledger Fabric.Gossip List Option

variable {payload : Payload} {b : PayloadsBuffer} {a : Adder}

def verified (conf : StateConfig) (payload : Payload) : Bool :=
  (conf.unmarshalBlock payload.data).any (verifyBlock conf payload.seqNum)

def decodable (conf : StateConfig) (payload : Payload) : Bool := (readPrivateData conf payload).isSome

-- Gossip and the client of the ordering service verify a block before they pass it on.
def Arrives (conf : StateConfig) (_ : StateProvider) : Step → Prop
  | .gossip payload => verified conf payload
  | .addPayload payload => verified conf payload
  | _ => True

def ArrivesDecodable (conf : StateConfig) (_ : StateProvider) : Step → Prop
  | .gossip payload => verified conf payload ∧ decodable conf payload
  | .addPayload payload => verified conf payload ∧ decodable conf payload
  | .respond payloads => ∀ payload ∈ payloads, decodable conf payload
  | _ => True

instance (conf : StateConfig) (s : StateProvider) : ∀ l, Decidable (Arrives conf s l)
  | .gossip _ => inferInstanceAs (Decidable (_ = true))
  | .addPayload _ => inferInstanceAs (Decidable (_ = true))
  | .respond _ => .isTrue trivial
  | .add _ => .isTrue trivial
  | .deliver _ => .isTrue trivial
  | .stop => .isTrue trivial
  | .finish => .isTrue trivial

instance (conf : StateConfig) (s : StateProvider) : ∀ l, Decidable (ArrivesDecodable conf s l)
  | .gossip _ => inferInstanceAs (Decidable (_ ∧ _))
  | .addPayload _ => inferInstanceAs (Decidable (_ ∧ _))
  | .respond payloads => inferInstanceAs (Decidable (∀ payload ∈ payloads, _))
  | .add _ => .isTrue trivial
  | .deliver _ => .isTrue trivial
  | .stop => .isTrue trivial
  | .finish => .isTrue trivial

/-- What the ledger has been handed, and that a buffered next block will be noticed. -/
structure DeliversInOrder (start : Nat) (s : StateProvider) : Prop where
  consecutive : s.handed = List.range' start s.handed.length
  noSkip : ∀ number height, s.deliverer = .panicked number height → number = height
  awake : s.deliverer = .waiting → s.payloads.next ∈ s.payloads.buf → s.payloads.readyChan = true

structure Good (conf : StateConfig) (payload : Payload) : Prop where
  verified : verified conf payload
  decodable : decodable conf payload

theorem Good.readPayload {conf : StateConfig} (good : Good conf payload) : ∃ p, readPayload conf payload = some (payload.seqNum, p) := by
  obtain ⟨block, decoded, signed⟩ := (Option.any_eq_true ..).mp good.verified
  obtain ⟨p, private_⟩ := isSome_iff_exists.mp good.decodable
  simp only [verifyBlock, Bool.and_eq_true, beq_iff_eq] at signed
  obtain ⟨data, present, -⟩ := (Option.any_eq_true ..).mp signed.1.2
  exact ⟨p, by simp [Fabric.Gossip.readPayload, decoded, present, signed.1.1, private_]⟩

structure BufferSound (conf : StateConfig) (b : PayloadsBuffer) : Prop where
  filed : ∀ (n : Nat) (payload : Payload), b.buf[n]? = some payload → payload.seqNum = n
  good : ∀ (n : Nat) (payload : Payload), b.buf[n]? = some payload → Good conf payload

theorem BufferSound.push {conf : StateConfig} (sound : BufferSound conf b) (good : Good conf payload)
    : BufferSound conf (b.push payload) := by
  unfold PayloadsBuffer.push
  split
  · exact sound
  · constructor
    · intro n p found
      simp only [get_insert] at found
      split at found
      · cases found
        assumption
      · exact sound.filed n p found
    · intro n p found
      simp only [get_insert] at found
      split at found
      · cases found
        exact good
      · exact sound.good n p found

theorem push_next (b : PayloadsBuffer) (payload : Payload) : (b.push payload).next = b.next := by
  unfold PayloadsBuffer.push
  split <;> rfl

theorem push_awake (awake : b.next ∈ b.buf → b.readyChan = true) :
    (b.push payload).next ∈ (b.push payload).buf → (b.push payload).readyChan = true := by
  unfold PayloadsBuffer.push
  split
  · exact awake
  · intro buffered
    simp only [mem_insertKey] at buffered
    split
    · rfl
    · rename_i silent
      cases buffered with
      | inl here => simpa [here] using silent
      | inr before => exact awake before

theorem pop_spec {conf : StateConfig} {b' : PayloadsBuffer} (sound : BufferSound conf b) (popped : b.pop = some (payload, b')) :
    payload.seqNum = b.next ∧ Good conf payload ∧ b'.next = b.next + 1 ∧ BufferSound conf b' := by
  obtain ⟨result, found, taken⟩ := map_eq_some_iff.mp popped
  cases taken
  have rest : BufferSound conf { b with buf := b.buf.erase b.next, next := b.next + 1 } := by
    constructor
    · intro n p kept
      simp only [getElem?_erase] at kept
      split at kept
      · cases kept
      · exact sound.filed n p kept
    · intro n p kept
      simp only [getElem?_erase] at kept
      split at kept
      · cases kept
      · exact sound.good n p kept
  refine ⟨sound.filed _ _ found, sound.good _ _ found, ?_, ?_⟩
  · unfold PayloadsBuffer.drainReadChannel
    split <;> rfl
  · unfold PayloadsBuffer.drainReadChannel
    split
    · exact ⟨rest.filed, rest.good⟩
    · exact rest

def AdderSound (conf : StateConfig) : Adder → Prop
  | .verifying rest => ∀ payload ∈ rest, decodable conf payload
  | .checking payload _ rest => Good conf payload ∧ ∀ payload ∈ rest, decodable conf payload
  | .waiting payload rest => Good conf payload ∧ ∀ payload ∈ rest, decodable conf payload
  | .pushing payload rest => Good conf payload ∧ ∀ payload ∈ rest, decodable conf payload

theorem adder_step_spec {conf : StateConfig} (height : Nat) (b : PayloadsBuffer) (sound : AdderSound conf a) :
    ((a.step conf height b).1 = b ∨ ∃ payload, Good conf payload ∧ (a.step conf height b).1 = b.push payload) ∧
      ∀ a', (a.step conf height b).2 = some a' → AdderSound conf a' := by
  fun_cases Adder.step with
  | case1 => simp
  | case2 payload rest signed =>
    refine ⟨.inl rfl, ?_⟩
    intro a' after
    cases after
    exact ⟨⟨signed, sound _ mem_cons_self⟩, fun p mem => sound p (mem_cons_of_mem _ mem)⟩
  | case3 => simp
  | case4 payload rest far =>
    refine ⟨.inl rfl, ?_⟩
    intro a' after
    cases after
    exact sound.2
  | case5 payload rest near =>
    refine ⟨.inl rfl, ?_⟩
    intro a' after
    cases after
    exact sound
  | case6 payload rest =>
    refine ⟨.inl rfl, ?_⟩
    intro a' after
    cases after
    exact sound
  | case7 payload rest full =>
    refine ⟨.inl rfl, ?_⟩
    intro a' after
    cases after
    exact sound
  | case8 payload rest room =>
    refine ⟨.inl rfl, ?_⟩
    intro a' after
    cases after
    exact sound
  | case9 payload rest =>
    refine ⟨.inr ⟨payload, sound.1, rfl⟩, ?_⟩
    intro a' after
    cases after
    exact sound.2

def Placed (conf : StateConfig) (start : Nat) (s : StateProvider) : Prop :=
  match s.deliverer with
  | .popped payload =>
    s.payloads.next = s.height + 1 ∧ payload.seqNum = s.height ∧ Good conf payload ∧ s.height = start + s.handed.length
  | .aborted => True
  | .panicked number height => number = height
  | _ => s.payloads.next = s.height ∧ s.height = start + s.handed.length

structure Invariant (conf : StateConfig) (start : Nat) (s : StateProvider) : Prop where
  consecutive : s.handed = List.range' start s.handed.length
  placed : Placed conf start s
  buffer : BufferSound conf s.payloads
  adders : ∀ a ∈ s.adders, AdderSound conf a
  awake : s.deliverer = .waiting → s.payloads.next ∈ s.payloads.buf → s.payloads.readyChan = true

variable {conf : StateConfig} {start : Nat} {s t : StateProvider}

section

variable (inv : Invariant conf start s)
include inv

theorem Invariant.started (sound : AdderSound conf a) : Invariant conf start (s.start a) := by
  refine { inv with adders := ?_ }
  intro b mem
  cases mem_append.mp mem with
  | inl before => exact inv.adders b before
  | inr new =>
    rw [mem_singleton.mp new]
    exact sound

theorem Invariant.advanced {i : Nat} (running : s.adders[i]? = some a) : Invariant conf start (s.advance conf i a) := by
  have sound := inv.adders a (mem_of_getElem? running)
  obtain ⟨pushed, after⟩ := adder_step_spec s.height s.payloads sound
  have next : (s.advance conf i a).payloads.next = s.payloads.next := by
    rcases pushed with same | ⟨payload, _, same⟩
    · exact congrArg PayloadsBuffer.next same
    · exact (congrArg PayloadsBuffer.next same).trans (push_next _ _)
  constructor
  case consecutive => exact inv.consecutive
  case placed =>
    have placed := inv.placed
    unfold Placed at placed ⊢
    rw [next]
    exact placed
  case buffer =>
    show BufferSound conf (a.step conf s.height s.payloads).1
    rcases pushed with same | ⟨payload, good, same⟩
    · rw [same]
      exact inv.buffer
    · rw [same]
      exact inv.buffer.push good
  case adders =>
    intro b mem
    simp only [StateProvider.advance] at mem
    split at mem
    · exact inv.adders b (mem_of_mem_eraseIdx mem)
    · rename_i a' running'
      cases mem_or_eq_of_mem_set mem with
      | inl before => exact inv.adders b before
      | inr new => exact new ▸ after a' running'
  case awake =>
    intro waiting
    have awake := inv.awake waiting
    show (a.step conf s.height s.payloads).1.next ∈ _ → _
    rcases pushed with same | ⟨payload, _, same⟩
    · simpa only [StateProvider.advance, same] using awake
    · simpa only [StateProvider.advance, same] using push_awake awake

theorem Invariant.committed (result : StoreResult)
    (holds : s.deliverer = .popped payload) : Invariant conf start (s.commitBlock payload.seqNum result) := by
  have placed := inv.placed
  simp only [Placed, holds] at placed
  obtain ⟨next, number, -, height⟩ := placed
  have handed : s.handed ++ [payload.seqNum] = List.range' start (s.handed.length + 1) := by
    rw [range'_concat, ← inv.consecutive, number, height, Nat.one_mul]
  have consecutive : s.handed ++ [payload.seqNum] = List.range' start (s.handed ++ [payload.seqNum]).length := by
    simpa using handed
  simp only [StateProvider.commitBlock, storeResult, number, if_true]
  cases result with
  | stored =>
    refine ⟨number ▸ consecutive, ?_, inv.buffer, inv.adders, by simp⟩
    simp only [Placed, length_append, length_singleton]
    omega
  | executionFailure => exact ⟨number ▸ consecutive, trivial, inv.buffer, inv.adders, by simp⟩
  | failure => exact ⟨number ▸ consecutive, rfl, inv.buffer, inv.adders, by simp⟩

theorem Invariant.delivered {result : StoreResult} (taken : s.deliverPayloads conf result = some t) : Invariant conf start t := by
  have placed := inv.placed
  unfold StateProvider.deliverPayloads at taken
  cases point : s.deliverer with
  | waiting =>
    simp only [point, ite_none_right_eq_some, some.injEq] at taken
    obtain ⟨_, rfl⟩ := taken
    simp only [Placed, point] at placed
    exact ⟨inv.consecutive, placed, ⟨inv.buffer.filed, inv.buffer.good⟩, inv.adders, by simp⟩
  | popping =>
    simp only [point] at taken
    simp only [Placed, point] at placed
    cases popped : s.payloads.pop with
    | none =>
      simp only [popped, some.injEq] at taken
      subst taken
      have absent : s.payloads.buf[s.payloads.next]? = none := map_eq_none_iff.mp popped
      refine { inv with placed, awake := ?_ }
      intro _ buffered
      simp [mem_iff_isSome_getElem?, absent] at buffered
    | some r =>
      obtain ⟨payload, rest⟩ := r
      simp only [popped, some.injEq] at taken
      subst taken
      obtain ⟨number, good, next, sound⟩ := pop_spec inv.buffer popped
      refine ⟨inv.consecutive, ?_, sound, inv.adders, by simp⟩
      exact ⟨by simpa [placed.1] using next, number.trans placed.1, good, placed.2⟩
  | popped payload =>
    simp only [Placed, point] at placed
    obtain ⟨p, read⟩ := placed.2.2.1.readPayload
    simp only [point, read, some.injEq] at taken
    exact taken ▸ inv.committed result point
  | aborted => simp [point] at taken
  | panicked number height => simp [point] at taken
  | stopped => simp [point] at taken

theorem Invariant.step {l : Step} (arrives : ArrivesDecodable conf s l) (taken : s.step conf l = some t) : Invariant conf start t := by
  cases l with
  | gossip payload =>
    cases taken
    exact inv.started ⟨⟨arrives.1, arrives.2⟩, by simp⟩
  | addPayload payload =>
    cases taken
    exact inv.started ⟨⟨arrives.1, arrives.2⟩, by simp⟩
  | respond payloads =>
    cases taken
    exact inv.started arrives
  | add i =>
    obtain ⟨a, running, rfl⟩ := map_eq_some_iff.mp taken
    exact inv.advanced running
  | deliver result => exact inv.delivered taken
  | stop =>
    cases taken
    exact { inv with }
  | finish =>
    simp only [StateProvider.step, ite_none_right_eq_some, Bool.and_eq_true, beq_iff_eq, some.injEq] at taken
    obtain ⟨⟨_, waiting⟩, rfl⟩ := taken
    have placed := inv.placed
    simp only [Placed, waiting] at placed
    exact { inv with placed, awake := by simp }

end

theorem Invariant.initial {height : Nat} (made : newStateProvider height = .ok s) : Invariant conf height s := by
  unfold newStateProvider at made
  split at made
  · cases made
  · cases made
    exact ⟨rfl, by simp [Placed, newPayloadsBuffer], ⟨by simp [newPayloadsBuffer], by simp [newPayloadsBuffer]⟩, by simp,
      by simp [newPayloadsBuffer]⟩

/-- While the private data that comes with blocks can be decoded, blocks reach the ledger in order. -/
theorem blocks_delivered_in_order (conf : StateConfig) {height : Nat} {s t : StateProvider} {ls : List Step}
    (made : newStateProvider height = .ok s)
    (run : Reaches (StateProvider.step conf) (ArrivesDecodable conf) s ls t) : DeliversInOrder height t := by
  have inv : Invariant conf height t := run.invariant (fun _ t => Invariant conf height t) (Invariant.initial made)
      fun _ _ _ _ inv arrives taken => inv.step arrives taken
  refine ⟨inv.consecutive, ?_, inv.awake⟩
  intro number height panicked
  simpa only [Placed, panicked] using inv.placed

def plainConfig : StateConfig where
  unmarshalBlock data := data.head?.map fun n => ⟨some n.toNat, some [[n]]⟩
  unmarshalPvtDataPayload _ := none
  unmarshalTxPvtRwSet _ := none
  wellSigned _ := true
  blockingMode := true
  stateBlockBufferSize := 100

def blockPayload (n : Nat) (privateData : Option (List Bytes)) : Payload := ⟨n, [UInt8.ofNat n], privateData⟩

def arrival (payload : Payload) : List Step := [.addPayload payload, .add 0, .add 0, .add 0, .add 0]

/-- Block 1 is dropped because of its private data, and block 2 is handed to the ledger in its place. -/
theorem undecodablePvtData_skipsBlock :
    ∃ s ls t, newStateProvider 1 = .ok s ∧ Reaches (StateProvider.step plainConfig) (Arrives plainConfig) s ls t ∧
      t.handed = [2] ∧ t.deliverer = .panicked 2 1 ∧ ¬ DeliversInOrder 1 t := by
  obtain ⟨t, run, handed, panicked⟩ : ∃ t, Reaches (StateProvider.step plainConfig) (Arrives plainConfig)
      ⟨newPayloadsBuffer 1, [], .waiting, 1, [], false⟩
      (arrival (blockPayload 1 (some [[0]])) ++ arrival (blockPayload 2 none) ++ List.replicate 5 (.deliver .stored)) t ∧
      t.handed = [2] ∧ t.deliverer = .panicked 2 1 := exists_reaches _ (by decide +kernel) fun _ _ => id
  refine ⟨_, _, t, rfl, run, handed, panicked, ?_⟩
  intro ordered
  exact absurd (ordered.noSkip 2 1 panicked) (by decide)

theorem laterBlock_deliveredInOrder :
    ∃ s ls t, newStateProvider 1 = .ok s ∧ Reaches (StateProvider.step plainConfig) (ArrivesDecodable plainConfig) s ls t ∧
      t.handed = [1, 2] ∧ DeliversInOrder 1 t := by
  obtain ⟨t, run, handed⟩ : ∃ t, Reaches (StateProvider.step plainConfig) (ArrivesDecodable plainConfig)
      ⟨newPayloadsBuffer 1, [], .waiting, 1, [], false⟩
      (arrival (blockPayload 2 none) ++ arrival (blockPayload 1 none) ++ List.replicate 5 (.deliver .stored)) t ∧
      t.handed = [1, 2] := exists_reaches _ (by decide +kernel) fun _ _ => id
  exact ⟨_, _, t, rfl, run, handed, blocks_delivered_in_order plainConfig rfl run⟩

end Fabric.Proof.Gossip
