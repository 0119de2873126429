import Fabric.Etcdraft.Ordering

/-! # The block cutter over a sequence of calls -/

namespace Fabric.Proof.Etcdraft

open Fabric.Etcdraft.Ordering List Option

inductive CutterCall where
  | ordered (batchSize : BatchSize) (msg : Envelope)
  | cut

def callCutter (r : BlockCutter) : CutterCall → List (List Envelope) × BlockCutter
  | .ordered batchSize msg =>
    let (batches, _, r) := r.ordered batchSize msg
    (batches, r)
  | .cut =>
    let (batch, r) := r.cut
    ([batch], r)

def callsCutter (r : BlockCutter) : List CutterCall → List (List (List Envelope)) × BlockCutter
  | [] => ([], r)
  | call :: calls =>
    let (batches, r) := callCutter r call
    let (later, r) := callsCutter r calls
    (batches :: later, r)

abbrev Message := BatchSize × Envelope

def messagesOf (calls : List CutterCall) : List Message :=
  calls.flatMap fun
    | .ordered batchSize msg => [(batchSize, msg)]
    | .cut => []

def totalSize (batch : List Message) : Nat := (batch.map fun m => m.2.payload.length + m.2.signature.length).sum

-- The limits are compared when a message is added: the count after it was added, the size before.
structure WithinLimits (batch : List Message) : Prop where
  count : ∀ before a b, batch = before ++ [a, b] → batch.length ≤ a.1.maxMessageCount
  size : ∀ before a b, batch = before ++ [a, b] → totalSize batch < 2 ^ 32 → totalSize batch ≤ b.1.preferredMaxBytes

/-- The cutter holds the messages of a batch that is within its limits and not full. -/
structure Holds (r : BlockCutter) (pending : List Message) : Prop where
  batch : r.pendingBatch = pending.map Prod.snd
  tracked : r.pendingBatchSizeBytes = totalSize pending % 2 ^ 32
  notFull : ∀ before a, pending = before ++ [a] → pending.length < a.1.maxMessageCount ∧ a.1.maxMessageCount < 2 ^ 32
  within : WithinLimits pending

variable {r r' : BlockCutter} {pending : List Message} {batchSize : BatchSize} {msg : Envelope}

theorem withinLimits_nil : WithinLimits [] :=
  ⟨fun before a b same => by simp at same, fun before a b same => by simp at same⟩

theorem withinLimits_singleton (m : Message) : WithinLimits [m] := by
  constructor
  · intro before a b same
    have length := congrArg List.length same
    simp at length
  · intro before a b same
    have length := congrArg List.length same
    simp at length

theorem holds_empty : Holds ⟨[], 0⟩ [] := ⟨rfl, rfl, fun before a same => by simp at same, withinLimits_nil⟩

def Cuts (returned : List (List Envelope)) (r : BlockCutter) (stream : List Message) : Prop :=
  ∃ (batches : List (List Message)) (pending : List Message), returned = batches.map (List.map Prod.snd) ∧
    Holds r pending ∧ batches.flatten ++ pending = stream ∧ ∀ batch ∈ batches, WithinLimits batch

theorem totalSize_concat (batch : List Message) (batchSize : BatchSize) (msg : Envelope) :
    totalSize (batch ++ [(batchSize, msg)]) = totalSize batch + (msg.payload.length + msg.signature.length) := by
  simp [totalSize]

theorem Holds.concat (holds : Holds r pending)
    (room : pending ≠ [] → (r.pendingBatchSizeBytes + messageSizeBytes msg) % 2 ^ 32 ≤ batchSize.preferredMaxBytes) :
    WithinLimits (pending ++ [(batchSize, msg)]) := by
  constructor
  case count =>
    intro before a b same
    have same : pending ++ [(batchSize, msg)] = (before ++ [a]) ++ [b] := by rw [same, append_assoc]; rfl
    obtain ⟨isPending, _⟩ := append_inj' same rfl
    have room := (holds.notFull before a isPending).1
    simp only [length_append, length_singleton]
    omega
  case size =>
    intro before a b same small
    have same : pending ++ [(batchSize, msg)] = (before ++ [a]) ++ [b] := by rw [same, append_assoc]; rfl
    obtain ⟨isPending, isLast⟩ := append_inj' same rfl
    obtain rfl := singleton_inj.mp isLast
    have room := room (by simp [isPending])
    show _ ≤ batchSize.preferredMaxBytes
    rw [totalSize_concat] at small ⊢
    rw [holds.tracked, messageSizeBytes] at room
    omega

theorem Holds.enqueue (holds : Holds r pending) (fits : batchSize.maxMessageCount < 2 ^ 32)
    (room : pending ≠ [] → (r.pendingBatchSizeBytes + messageSizeBytes msg) % 2 ^ 32 ≤ batchSize.preferredMaxBytes) :
    let out := r.enqueue batchSize.maxMessageCount msg
    Cuts out.1 out.2.2 (pending ++ [(batchSize, msg)]) ∧ [] ∉ out.1 := by
  have within := holds.concat room
  unfold BlockCutter.enqueue
  dsimp only
  split
  · refine ⟨⟨[pending ++ [(batchSize, msg)]], [], ?_, holds_empty, by simp, ?_⟩, by simp [BlockCutter.cut]⟩
    · simp [BlockCutter.cut, holds.batch]
    · intro batch mem
      obtain rfl := mem_singleton.mp mem
      exact within
  · rename_i notFull
    refine ⟨⟨[], pending ++ [(batchSize, msg)], rfl, ⟨?_, ?_, ?_, within⟩, by simp, by simp⟩, by simp⟩
    · simp [holds.batch]
    · rw [totalSize_concat]
      dsimp only
      rw [holds.tracked, messageSizeBytes]
      omega
    · intro before a same
      obtain ⟨_, isLast⟩ := append_inj' same rfl
      obtain rfl := singleton_inj.mp isLast
      have bounded : pending.length + 1 < 2 ^ 32 := by
        rcases eq_nil_or_concat pending with rfl | ⟨before', last, isPending⟩
        · simp
        · have := holds.notFull before' last (by rw [isPending, concat_eq_append])
          omega
      simp only [length_append, length_singleton, holds.batch, length_map] at notFull ⊢
      rw [Nat.mod_eq_of_lt bounded] at notFull
      exact ⟨Nat.lt_of_not_le notFull, fits⟩

theorem Holds.ordered (holds : Holds r pending) (fits : batchSize.maxMessageCount < 2 ^ 32) : let out := r.ordered batchSize msg
    Cuts out.1 out.2.2 (pending ++ [(batchSize, msg)]) ∧ [] ∉ out.1 := by
  unfold BlockCutter.ordered
  split
  · split
    · rename_i empty
      have empty : pending = [] := by simpa [holds.batch] using empty
      subst empty
      refine ⟨⟨[[(batchSize, msg)]], [], rfl, holds, rfl, ?_⟩, by simp⟩
      intro batch mem
      obtain rfl := mem_singleton.mp mem
      exact withinLimits_singleton _
    · rename_i notEmpty
      refine ⟨⟨[pending, [(batchSize, msg)]], [], ?_, holds_empty, by simp, ?_⟩, ?_⟩
      · simp [BlockCutter.cut, holds.batch]
      · intro batch mem
        rcases mem_pair.mp mem with rfl | rfl
        · exact holds.within
        · exact withinLimits_singleton _
      · intro mem
        rcases mem_pair.mp mem with same | same
        · exact notEmpty (List.isEmpty_iff.mpr same.symm)
        · cases same
  · rename_i small
    split
    · rename_i overflow
      have notEmpty : r.pendingBatch ≠ [] := by
        rw [holds.batch]
        intro empty
        rw [holds.tracked, map_eq_nil_iff.mp empty] at overflow
        simp only [totalSize, map_nil, sum_nil, Nat.zero_mod, Nat.zero_add] at overflow
        exact small (overflow.trans_le (Nat.mod_le _ _))
      obtain ⟨⟨batches, pending', returned, after, split, within⟩, nonempty⟩ :=
        holds_empty.enqueue fits fun absurdity => absurd rfl absurdity
      refine ⟨⟨pending :: batches, pending', ?_, after, ?_, ?_⟩, ?_⟩
      · rw [map_cons, ← returned, ← holds.batch]
        rfl
      · rw [flatten_cons, append_assoc, split]
        rfl
      · intro batch mem
        rcases mem_cons.mp mem with rfl | later
        · exact holds.within
        · exact within batch later
      · exact fun mem => (mem_cons.mp mem).elim (fun same => notEmpty same.symm) nonempty
    · rename_i room
      exact holds.enqueue fits fun _ => Nat.le_of_not_lt room

theorem Holds.calls {calls : List CutterCall} (holds : Holds r pending)
    (fits : ∀ batchSize msg, .ordered batchSize msg ∈ calls → batchSize.maxMessageCount < 2 ^ 32) :
    Cuts (callsCutter r calls).1.flatten (callsCutter r calls).2 (pending ++ messagesOf calls) ∧
      ∀ (i : Nat) batchSize msg, calls[i]? = some (.ordered batchSize msg) →
        ∀ batches, (callsCutter r calls).1[i]? = some batches → [] ∉ batches := by
  induction calls generalizing r pending with
  | nil => exact ⟨⟨[], pending, rfl, holds, by simp [messagesOf], by simp⟩, by simp⟩
  | cons call calls ih =>
    have after : ∀ r' stream, callCutter r call = (stream, r') → Cuts stream r' (pending ++ messagesOf [call]) →
        (∀ batchSize msg, call = .ordered batchSize msg → [] ∉ stream) →
        Cuts (callsCutter r (call :: calls)).1.flatten (callsCutter r (call :: calls)).2 (pending ++ messagesOf (call :: calls)) ∧
          ∀ (i : Nat) batchSize msg, (call :: calls)[i]? = some (.ordered batchSize msg) →
            ∀ batches, (callsCutter r (call :: calls)).1[i]? = some batches → [] ∉ batches := by
      rintro r' stream called ⟨batches, between, rfl, held, split, within⟩ nonempty
      obtain ⟨⟨batches', pending', returned', held', split', within'⟩, nonempty'⟩ :=
        ih held fun batchSize msg mem => fits batchSize msg (mem_cons_of_mem _ mem)
      simp only [callsCutter, called]
      refine ⟨⟨batches ++ batches', pending', ?_, held', ?_, ?_⟩, ?_⟩
      · rw [flatten_cons, map_append, returned']
      · rw [flatten_append, append_assoc, split', ← append_assoc, split, append_assoc]
        simp [messagesOf]
      · exact fun batch mem => (mem_append.mp mem).elim (within batch) (within' batch)
      · rintro (_ | i) batchSize msg isCall batches'' found
        · obtain rfl := some.inj found
          exact nonempty batchSize msg (some.inj isCall)
        · exact nonempty' i batchSize msg isCall batches'' found
    cases call with
    | ordered batchSize msg =>
      obtain ⟨cuts, nonempty⟩ := holds.ordered (fits batchSize msg mem_cons_self)
      exact after _ _ rfl cuts fun _ _ _ => nonempty
    | cut =>
      refine after _ _ rfl ⟨[pending], [], ?_, holds_empty, by simp [messagesOf], ?_⟩ fun _ _ isOrdered => by cases isOrdered
      · simp [holds.batch]
      · intro batch mem
        obtain rfl := mem_singleton.mp mem
        exact holds.within

/-- The cutter returns the messages in order, in batches within their limits. -/
theorem cutter_preserves_stream (calls : List CutterCall)
    (fits : ∀ batchSize msg, .ordered batchSize msg ∈ calls → batchSize.maxMessageCount < 2 ^ 32) :
    let out := callsCutter ⟨[], 0⟩ calls
    out.1.flatten.flatten ++ out.2.pendingBatch = (messagesOf calls).map Prod.snd ∧
      (∀ (i : Nat) batchSize msg, calls[i]? = some (.ordered batchSize msg) → ∀ batches, out.1[i]? = some batches → [] ∉ batches) ∧
      ∃ (batches : List (List Message)) (pending : List Message), out.1.flatten = batches.map (List.map Prod.snd) ∧
        batches.flatten ++ pending = messagesOf calls ∧ ∀ batch ∈ batches, WithinLimits batch := by
  obtain ⟨⟨batches, pending, returned, held, split, within⟩, nonempty⟩ := holds_empty.calls fits
  refine ⟨?_, nonempty, batches, pending, returned, split, within⟩
  rw [returned, held.batch, ← map_flatten, ← map_append, split]
  rfl

def smallMessage : Envelope := ⟨none, [1], [2]⟩

theorem twoInABatch : callsCutter ⟨[], 0⟩ (List.replicate 3 (.ordered ⟨2, 10⟩ smallMessage)) =
      ([[], [[smallMessage, smallMessage]], []], ⟨[smallMessage], 2⟩) ∧
    ∃ (batches : List (List Message)) (pending : List Message), [[smallMessage, smallMessage]] = batches.map (List.map Prod.snd) ∧
      batches.flatten ++ pending = List.replicate 3 (⟨2, 10⟩, smallMessage) ∧ ∀ batch ∈ batches, WithinLimits batch := by
  refine ⟨rfl, (cutter_preserves_stream (List.replicate 3 (.ordered ⟨2, 10⟩ smallMessage)) ?_).2.2⟩
  intro batchSize msg mem
  cases eq_of_mem_replicate mem
  decide

/-- The limits go down from four messages of ten bytes to two messages of five bytes while three messages of two bytes
are pending. -/
theorem loweredLimits_exceeded :
    callsCutter ⟨[], 0⟩ (List.replicate 3 (.ordered ⟨4, 10⟩ smallMessage) ++ [.ordered ⟨2, 5⟩ smallMessage]) =
      ([[], [], [], [List.replicate 3 smallMessage]], ⟨[smallMessage], 2⟩) := rfl

end Fabric.Proof.Etcdraft
