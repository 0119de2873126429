import Fabric.Gossip.MsgStore

/-! # What a message store holds -/

namespace Fabric.Proof.Gossip

open Fabric.Gossip InvalidationResult List

variable {M : Type} {pol : M → M → InvalidationResult} {s : MessageStore M} {message : M} {msgs : List (Msg M)}
  {msgTTL now : Int} {steps : List (MsgStep M)} {step : MsgStep M}

/-- Messages that do not affect each other are not on different sides of a new one. -/
structure Coherent (pol : M → M → InvalidationResult) : Prop where
  symm : ∀ a b, pol a b = messageNoAction → pol b a = messageNoAction
  apart : ∀ new a b, pol new a = messageInvalidates → pol new b = messageInvalidated → pol a b ≠ messageNoAction

def contents (msgs : List (Msg M)) : List M := msgs.map (·.data)

def Settled (pol : M → M → InvalidationResult) (msgs : List (Msg M)) : Prop :=
  (contents msgs).Pairwise fun a b => pol a b = messageNoAction

theorem invalidate_spec (pol : M → M → InvalidationResult) (message : M) (msgs : List (Msg M)) :
    ((invalidate pol message msgs).1 = true ↔ ∀ m ∈ msgs, pol message m.data ≠ messageInvalidated) ∧
    (invalidate pol message msgs).2 <+ msgs ∧ ((invalidate pol message msgs).1 = true →
      (invalidate pol message msgs).2 = msgs.filter (pol message ·.data ≠ messageInvalidates)) := by
  induction msgs with
  | nil => simp [invalidate]
  | cons m msgs ih =>
    obtain ⟨added, sublist, left⟩ := ih
    unfold invalidate
    split
    · simp_all
    · exact ⟨by simp_all, sublist.cons _, by simp_all⟩
    · exact ⟨by simp_all, sublist.cons_cons _, by simp_all⟩

theorem invalidate_refused (coherent : Coherent pol) (settled : Settled pol msgs)
    (refused : (invalidate pol message msgs).1 = false) : (invalidate pol message msgs).2 = msgs := by
  induction msgs with
  | nil => rfl
  | cons m msgs ih =>
    obtain ⟨first, rest⟩ := pairwise_cons.mp settled
    unfold invalidate at refused ⊢
    split at refused
    · rfl
    · rename_i invalidates
      rw [← Bool.not_eq_true, (invalidate_spec ..).1] at refused
      push Not at refused
      obtain ⟨later, mem, invalidated⟩ := refused
      exact (coherent.apart _ _ _ invalidates invalidated (first _ (mem_map_of_mem mem))).elim
    · dsimp only
      rw [ih rest refused]

theorem add_spec (coherent : Coherent pol) (settled : Settled pol s.messages) (message : M) (now : Int) :
    ((s.add pol message now).1 = true ↔ ∀ m ∈ s.messages, pol message m.data ≠ messageInvalidated) ∧
    (s.add pol message now).2 = if (s.add pol message now).1 then
      { s with messages := s.messages.filter (pol message ·.data ≠ messageInvalidates) ++ [⟨message, now, false⟩] } else s := by
  obtain ⟨added, _, left⟩ := invalidate_spec pol message s.messages
  rw [← added]
  cases result : (invalidate pol message s.messages).1 with
  | false => simp [MessageStore.add, result, invalidate_refused coherent settled result]
  | true => simp_all [MessageStore.add]

theorem expire_sublist : contents (expire msgTTL now msgs).1 <+ contents msgs := by
  induction msgs with
  | nil => exact Sublist.refl _
  | cons m msgs ih =>
    simp only [expire]
    split_ifs
    · exact ih.cons_cons _
    · exact ih.cons_cons _
    · exact ih.cons _
    · exact ih.cons_cons _

theorem settled_step (coherent : Coherent pol) (settled : Settled pol s.messages) (step : MsgStep M) :
    Settled pol (s.step pol msgTTL step).messages := by
  cases step with
  | add message now =>
    obtain ⟨added, sublist, left⟩ := invalidate_spec pol message s.messages
    simp only [MessageStore.step, MessageStore.add]
    split_ifs with refused
    · exact settled.sublist (sublist.map _)
    · simp only [Settled, contents, map_append, map_singleton, pairwise_append, pairwise_singleton, true_and]
      refine ⟨settled.sublist (sublist.map _), ?_⟩
      simp only [mem_map, mem_singleton]
      rintro _ ⟨m, mem, rfl⟩ new rfl
      apply coherent.symm
      have added := added.mp (by simpa using refused) m (sublist.subset mem)
      have kept : pol new m.data ≠ messageInvalidates := by simp_all
      cases result : pol new m.data <;> simp_all
  | purge shouldBePurged =>
    simp only [MessageStore.step, MessageStore.purge]
    split
    · exact settled.sublist (filter_sublist.map _)
    · exact settled
  | expireMessages now => exact settled.sublist expire_sublist

theorem settled_run (coherent : Coherent pol) (settled : Settled pol s.messages) :
    Settled pol (steps.foldl (·.step pol msgTTL) s).messages := by
  induction steps generalizing s with
  | nil => exact settled
  | cons step steps ih => exact ih (settled_step coherent settled step)

theorem timestampPolicy_noAction {a b : Ledger.Bytes} {t u : PeerTime} : timestampPolicy a b t u = messageNoAction ↔ a ≠ b := by
  simp only [timestampPolicy, compareTimestamps]
  split_ifs <;> simp_all

theorem timestampPolicy_apart {a b c : Ledger.Bytes} {t u v : PeerTime} (first : timestampPolicy a b t u = messageInvalidates)
    (second : timestampPolicy a c t v = messageInvalidated) : timestampPolicy b c u v ≠ messageNoAction := by
  have sameB : a = b := by
    by_contra differ
    rw [timestampPolicy_noAction.mpr differ] at first
    cases first
  have sameC : a = c := by
    by_contra differ
    rw [timestampPolicy_noAction.mpr differ] at second
    cases second
  rw [Ne, timestampPolicy_noAction, not_not, ← sameB, sameC]

theorem abs_le {a b window : UInt64} :
    Gossip.abs a b ≤ window ↔ a.toNat ≤ b.toNat + window.toNat ∧ b.toNat ≤ a.toNat + window.toNat := by
  unfold Gossip.abs
  split_ifs with more
  · have := UInt64.lt_iff_toNat_lt.mp more
    rw [UInt64.le_iff_toNat_le, UInt64.toNat_sub_of_le _ _ (UInt64.le_of_lt more)]
    omega
  · have less := UInt64.not_lt.mp more
    have := UInt64.le_iff_toNat_le.mp less
    rw [UInt64.le_iff_toNat_le, UInt64.toNat_sub_of_le _ _ less]
    omega

theorem coherent_invalidationPolicy (window : Int64) : Coherent (invalidationPolicy window) := by
  constructor
  · intro a b noAction
    cases a <;> cases b <;>
      simp only [invalidationPolicy, timestampPolicy_noAction, identityInvalidationPolicy, dataInvalidationPolicy, abs_le] at noAction ⊢
    all_goals grind
  · intro new a b invalidates invalidated
    cases new <;> cases a <;> simp only [invalidationPolicy, reduceCtorEq] at invalidates <;>
      cases b <;> simp only [invalidationPolicy, reduceCtorEq] at invalidated ⊢
    any_goals exact timestampPolicy_apart invalidates invalidated
    all_goals
      simp only [identityInvalidationPolicy, dataInvalidationPolicy, abs_le] at *
      grind [UInt64.lt_iff_toNat_lt]

/-- The messages stored do not affect each other, an added message replaces those it invalidates and a refused one
changes nothing, and the blocks stored lie in the window. -/
theorem gossipStore_settled (window : Int64) (msgTTL : Int) (steps : List (MsgStep GossipMessage)) :
    let pol := invalidationPolicy window
    let s := steps.foldl (·.step pol msgTTL) newMsgStore
    (contents s.messages).Pairwise (fun a b => pol a b = messageNoAction ∧ pol b a = messageNoAction) ∧
    (∀ message now, ((s.add pol message now).1 = true ↔ ∀ m ∈ s.messages, pol message m.data ≠ messageInvalidated) ∧
      (s.add pol message now).2 = if (s.add pol message now).1 then
        { s with messages := s.messages.filter (pol message ·.data ≠ messageInvalidates) ++ [⟨message, now, false⟩] } else s) ∧
    ∀ x y, .dataMsg x ∈ contents s.messages → .dataMsg y ∈ contents s.messages → x.toNat ≤ y.toNat + window.toUInt64.toNat := by
  intro pol s
  have coherent := coherent_invalidationPolicy window
  have settled : Settled pol s.messages := settled_run coherent Pairwise.nil
  refine ⟨settled.imp fun noAction => ⟨noAction, coherent.symm _ _ noAction⟩, ?_, ?_⟩
  · exact fun message now => add_spec coherent settled message now
  · intro x y memX memY
    by_cases same : x = y
    · subst same
      omega
    · have : Std.Symm fun a b => pol a b = messageNoAction := ⟨coherent.symm⟩
      have noAction : dataInvalidationPolicy window x y = messageNoAction := settled.forall memX memY (by simpa using same)
      simp only [dataInvalidationPolicy, abs_le] at noAction
      split_ifs at noAction with near
      exact near.1

def expiredStored (s : MessageStore M) : Nat := s.messages.countP (·.expired)

def Counted (s : MessageStore M) : Prop := s.expiredCount = expiredStored s

theorem counted_iff : Counted s ↔ s.size = s.get.length := by
  have split := s.messages.length_eq_countP_add_countP (·.expired)
  simp only [Bool.not_eq_true, ← Bool.not_eq_true', Bool.decide_eq_true] at split
  simp only [Counted, MessageStore.size, MessageStore.get, expiredStored, length_map, ← countP_eq_length_filter]
  omega

theorem expire_count : (expire msgTTL now msgs).2 = ((expire msgTTL now msgs).1.countP (·.expired) : Int) - msgs.countP (·.expired) := by
  induction msgs with
  | nil => rfl
  | cons m msgs ih =>
    simp only [expire]
    split_ifs <;> simp_all <;> omega

theorem invalidate_countP : (invalidate pol message msgs).2.countP (·.expired) = msgs.countP (·.expired) ↔
    ∀ m ∈ msgs.takeWhile (pol message ·.data ≠ messageInvalidated), m.expired → pol message m.data ≠ messageInvalidates := by
  induction msgs with
  | nil => simp [invalidate]
  | cons m msgs ih =>
    have fewer := (invalidate_spec pol message msgs).2.1.countP_le (p := (·.expired))
    unfold invalidate
    split
    · simp_all
    · cases expired : m.expired
      · simp_all
      · simp_all
        omega
    · simp_all [countP_cons]

/-- No message that has expired is removed: `Add` comes to none that the new one invalidates before one that invalidates
the new one, and `Purge` selects none. -/
def KeepsExpired (pol : M → M → InvalidationResult) (s : MessageStore M) : MsgStep M → Prop
  | .add message _ => ∀ m ∈ s.messages.takeWhile (pol message ·.data ≠ messageInvalidated),
      m.expired → pol message m.data ≠ messageInvalidates
  | .purge shouldBePurged => ∀ m ∈ s.messages, m.expired → shouldBePurged m.data = false
  | .expireMessages _ => True

theorem counted_of_sameCount {s' : MessageStore M} (counted : Counted s) (same : s'.expiredCount = s.expiredCount) :
    Counted s' ↔ expiredStored s' = expiredStored s := by
  rw [Counted, same, counted, Nat.cast_inj, eq_comm]

theorem counted_step (counted : Counted s) (step : MsgStep M) : Counted (s.step pol msgTTL step) ↔ KeepsExpired pol s step := by
  cases step with
  | add message now =>
    rw [KeepsExpired, ← invalidate_countP, counted_of_sameCount counted]
    · simp only [MessageStore.step, MessageStore.add, expiredStored]
      split <;> simp
    · simp only [MessageStore.step, MessageStore.add]
      split <;> rfl
  | purge shouldBePurged =>
    simp only [KeepsExpired, MessageStore.step, MessageStore.purge]
    split
    · rw [counted_of_sameCount counted]
      · simp only [expiredStored, countP_eq_length_filter]
        rw [filter_comm, length_filter_eq_length_iff]
        simp
      · rfl
    · exact iff_of_true counted fun m mem _ => by simp_all
  | expireMessages now =>
    refine iff_of_true ?_ trivial
    rw [Counted, MessageStore.step, MessageStore.expireMessages, expire_count, counted]
    simp [expiredStored]

def AllKeepExpired (pol : M → M → InvalidationResult) (msgTTL : Int) : MessageStore M → List (MsgStep M) → Prop
  | _, [] => True
  | s, step :: steps => KeepsExpired pol s step ∧ AllKeepExpired pol msgTTL (s.step pol msgTTL step) steps

theorem counted_run (counted : Counted s) :
    (∀ ran, ran <+: steps → Counted (ran.foldl (·.step pol msgTTL) s)) ↔ AllKeepExpired pol msgTTL s steps := by
  induction steps generalizing s with
  | nil => simpa [AllKeepExpired] using counted
  | cons step steps ih =>
    rw [AllKeepExpired, ← counted_step counted]
    constructor
    · intro each
      have next := each [step] ⟨steps, rfl⟩
      refine ⟨next, (ih next).mp fun ran ranBefore => each (step :: ran) ?_⟩
      exact cons_prefix_cons.mpr ⟨rfl, ranBefore⟩
    · rintro ⟨next, keep⟩ ran ranBefore
      rcases prefix_cons_iff.mp ranBefore with rfl | ⟨later, rfl, laterBefore⟩
      · exact counted
      · exact (ih next).mpr keep later laterBefore

/-- The size agrees with the messages returned exactly as long as only the expiry itself removes expired messages. -/
theorem size_eq_get_iff (pol : M → M → InvalidationResult) (msgTTL : Int) (steps : List (MsgStep M)) :
    (∀ ran, ran <+: steps → let s := ran.foldl (·.step pol msgTTL) newMsgStore
      s.size = s.get.length ∧ 0 ≤ s.size) ↔ AllKeepExpired pol msgTTL newMsgStore steps := by
  have counted : Counted (newMsgStore (M := M)) := rfl
  rw [← counted_run counted]
  refine forall₂_congr fun ran _ => ?_
  rw [counted_iff]
  exact and_iff_left_of_imp fun same => same ▸ Int.natCast_nonneg _

/-- Newer messages of a peer replace the ones that have expired, which stay counted. -/
theorem replacedExpired_miscounted :
    let alive seqNum := GossipMessage.aliveMsg [1] ⟨1, seqNum⟩
    let s := [.add (alive 1) 0, .expireMessages 11, .add (alive 2) 12, .expireMessages 23, .add (alive 3) 24].foldl
      (·.step (invalidationPolicy 5) 10) newMsgStore
    s.size = -1 ∧ s.get.length = 1 := by
  decide

end Fabric.Proof.Gossip
