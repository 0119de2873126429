import Fabric.Etcdraft.RunLoop

/-! # Leaders that serve again, and the blocks in flight -/

namespace Fabric.Proof.Etcdraft.RunLoop

open Lib Fabric.Etcdraft.RunLoop List Option

variable {limit : Nat} {kept fits : Prop} {n n' : Loop} {app : Apply} {created : List Block} {b : Block} {e : Event}

/-- A leader that is deposed has written the config blocks it created. -/
def Unbroken (n : Loop) : Event → Prop
  | .apply app => n.lead = true → app.soft = some false → ∀ b ∈ n.created, b = .normal
  | _ => True

def isForeign : Entry → Bool
  | .block _ => true
  | _ => false

/-- The second batch of a submission finds a place, the timer leaves the last place to an open gate, and a leader that
serves writes no block of others. -/
def Fits (limit : Nat) (n : Loop) : Event → Prop
  | .submit batches _ => n.lead = true → batches.length = 2 → n.blockInflight + 2 ≤ limit
  | .timer batch => batch = true → n.blockInflight + (if n.submitC then 2 else 1) ≤ limit
  | .apply app =>
    n.lead = true → n.justElected = false → app.soft ≠ some false → ∀ e ∈ app.entries, isForeign e = false
  | _ => True

instance (n : Loop) (e : Event) : Decidable (Unbroken n e) := by
  cases e <;> unfold Unbroken <;> infer_instance

instance (n : Loop) (e : Event) : Decidable (Fits limit n e) := by
  cases e <;> unfold Fits <;> infer_instance

def Idle (n : Loop) : Prop :=
  n.lead = false ∨ n.justElected = true

/-- What holds in runs whose steps are unbroken, if `kept`, and fit, if `fits`. -/
structure Steady (kept fits : Prop) (limit : Nat) (n : Loop) : Prop where
  idle : Idle n → n.created = [] ∧ n.ticking = false ∧ n.blockInflight = 0
  gate : n.justElected = true → n.submitC = !n.lead
  flag : kept → n.configInflight = true → n.confChangeInProgress = true ∨ ∃ b ∈ n.created, b ≠ .normal
  count : fits → n.blockInflight = n.created.length ∧ n.propC ≤ n.created.length ∧ n.created.length ≤ limit ∧
    n.panicked = false

theorem steady_newLoop : Steady kept fits limit newLoop := by
  constructor <;> simp [newLoop]

section

variable (steady : Steady kept fits limit n)
include steady

theorem Steady.propose (serves : ¬ Idle n) (room : fits → n.blockInflight + 1 ≤ limit) (b : Block) :
    Steady kept fits limit (n.propose limit b) ∧ ¬ Idle (n.propose limit b) ∧ (n.propose limit b).blockInflight ≤ n.blockInflight + 1 := by
  have ⟨idle, gate, flag, count⟩ := steady
  unfold Loop.propose
  split
  case isTrue full => exact ⟨⟨idle, gate, flag, by grind -linarith⟩, serves, Nat.le_succ _⟩
  case isFalse =>
    refine ⟨⟨fun h => absurd h serves, gate, fun h set => ?_, by grind -linarith⟩, serves, le_rfl⟩
    by_cases normal : b = .normal
    · have before := flag h (by simpa [normal] using set)
      simpa [normal] using before
    · exact .inr ⟨b, by simp, normal⟩

theorem Steady.proposeAll (serves : ¬ Idle n) (batches : List Block) (room : fits → n.blockInflight + batches.length ≤ limit) :
    Steady kept fits limit (batches.foldl (Loop.propose limit) n) ∧ ¬ Idle (batches.foldl (Loop.propose limit) n) := by
  induction batches generalizing n with
  | nil => exact ⟨steady, serves⟩
  | cons b rest ih =>
    rw [length_cons] at room
    obtain ⟨first, still, more⟩ := steady.propose serves (fun h => by have := room h; omega) b
    exact ih first still fun h => by have := room h; omega

theorem Steady.submit (isOpen : n.submitC = true) {batches : List Block}
    (room : fits → ¬ Idle n → n.blockInflight + batches.length ≤ limit) (pending : Bool) :
    Steady kept fits limit (n.submit limit batches pending) ∧
      (n.submit limit batches pending = n ∨ ¬ Idle (n.submit limit batches pending)) := by
  unfold Loop.submit
  split
  case isTrue => exact ⟨steady, .inl rfl⟩
  case isFalse leads =>
    have ⟨idle, gate, flag, count⟩ := steady
    -- Before a new leader serves, its gate is shut.
    have serves : ¬ Idle n := by grind -linarith [Idle]
    have started : Steady kept fits limit { n with ticking := pending } := ⟨fun h => absurd h serves, gate, flag, count⟩
    obtain ⟨all, still⟩ := started.proposeAll serves batches fun h => room h serves
    dsimp only
    split
    · exact ⟨⟨fun h => absurd h still, by grind -linarith [Idle], all.flag, all.count⟩, .inr still⟩
    · exact ⟨all, .inr still⟩

theorem Steady.observe (unbroken : kept → Unbroken n (.apply app)) : Steady kept fits limit (n.observe app) := by
  have ⟨idle, gate, flag, count⟩ := steady
  unfold Loop.observe
  split
  case h_1 => constructor <;> grind -linarith [Loop.becomeLeader, Idle]
  case h_2 deposed lead =>
    have written := fun h => unbroken h lead deposed
    constructor <;> grind -linarith [Loop.becomeFollower]
  case h_3 => exact steady

theorem Steady.writeBlock (left : n.created = b :: created ∧ n.propC ≤ created.length ∨ n.created = created ∧ (fits → Idle n)) :
    Steady kept fits limit (Loop.writeBlock { n with created := created } b) := by
  have ⟨idle, gate, flag, count⟩ := steady
  constructor <;> cases b <;> grind -linarith [Loop.writeBlock, Idle]

end

/-- Writing blocks opens no gate and takes no place. -/
def SameGate (n n' : Loop) : Prop :=
  (Idle n' ↔ Idle n) ∧ n'.submitC = n.submitC ∧ n'.blockInflight ≤ n.blockInflight

theorem writeBlock_sameGate : SameGate n (Loop.writeBlock { n with created := created } b) := by
  cases b <;> exact ⟨.rfl, rfl, Nat.sub_le ..⟩

theorem Steady.applyEntry (steady : Steady kept fits limit n) {e : Entry} (own : fits → ¬ Idle n → isForeign e = false) :
    Steady kept fits limit (n.applyEntry e) ∧ SameGate n (n.applyEntry e) := by
  have same : SameGate n n := ⟨.rfl, rfl, le_rfl⟩
  cases e with
  | own =>
    simp only [Loop.applyEntry]
    split
    · exact ⟨steady, same⟩
    case _ b rest created =>
      split
      case isTrue left => exact ⟨steady.writeBlock (.inl ⟨created, left⟩), writeBlock_sameGate⟩
      case isFalse => exact ⟨steady, same⟩
  | block b =>
    refine ⟨steady.writeBlock (.inr ⟨rfl, fun h => ?_⟩), writeBlock_sameGate⟩
    by_contra serves
    cases own h serves
  | confChange =>
    simp only [Loop.applyEntry]
    split
    · exact ⟨⟨steady.idle, steady.gate, by simp, steady.count⟩, same⟩
    · exact ⟨steady, same⟩
  | other => exact ⟨steady, same⟩

theorem Steady.entries (steady : Steady kept fits limit n) (entries : List Entry)
    (own : fits → ¬ Idle n → ∀ e ∈ entries, isForeign e = false) :
    Steady kept fits limit (entries.foldl Loop.applyEntry n) ∧ SameGate n (entries.foldl Loop.applyEntry n) := by
  induction entries generalizing n with
  | nil => exact ⟨steady, .rfl, rfl, le_rfl⟩
  | cons e rest ih =>
    obtain ⟨first, same⟩ := steady.applyEntry fun h serves => own h serves e mem_cons_self
    obtain ⟨all, still⟩ := ih first fun h serves e mem => own h (mt same.1.mpr serves) e (mem_cons_of_mem _ mem)
    exact ⟨all, still.1.trans same.1, still.2.1.trans same.2.1, still.2.2.trans same.2.2⟩

theorem Steady.resume (steady : Steady kept fits limit n) (msgInflight : Bool) : Steady kept fits limit (n.resume limit msgInflight) := by
  have ⟨idle, gate, flag, count⟩ := steady
  constructor <;> grind -linarith [Loop.resume, Idle]

def Closed (n : Loop) : Prop :=
  n.lead = false → n.submitC = false → n.configInflight = true

theorem Steady.resume_closed (steady : Steady kept fits limit n) (positive : 0 < limit) (msgInflight : Bool) :
    Closed (n.resume limit msgInflight) := by
  have ⟨idle, gate, _, _⟩ := steady
  grind -linarith [Loop.resume, Closed, Idle]

theorem observe_idle (stays : Idle n ∨ app.soft = some false) : Idle (n.observe app) := by
  unfold Loop.observe
  grind -linarith [Loop.becomeFollower, Loop.becomeLeader, Idle]

/-- A leader takes submissions only below the limit. -/
def Gated (limit : Nat) (n : Loop) : Prop :=
  ¬ Idle n → n.submitC = true → n.blockInflight < limit

theorem Gated.submit (gated : Gated limit n) (batches : List Block) (pending : Bool) :
    Gated limit (n.submit limit batches pending) := by
  unfold Loop.submit
  split
  · exact gated
  · dsimp only
    split
    · simp [Gated]
    case isFalse below => exact fun _ _ => by grind -linarith

theorem Gated.observe (gated : Gated limit n) (app : Apply) : Gated limit (n.observe app) := by
  unfold Loop.observe
  split
  · exact fun serves => absurd (.inr rfl) serves
  · exact fun serves => absurd (.inl rfl) serves
  · exact gated

theorem Gated.same (gated : Gated limit n) (same : SameGate n n') : Gated limit n' := by
  grind -linarith [Gated, SameGate]

theorem Steady.gated_resume (steady : Steady kept fits limit n) (positive : 0 < limit) (gated : Gated limit n)
    (msgInflight : Bool) : Gated limit (n.resume limit msgInflight) := by
  have idle := steady.idle
  grind -linarith [Loop.resume, Gated, Idle]

theorem Steady.step (steady : Steady kept fits limit n) (gated : fits → Gated limit n) (unbroken : kept → Unbroken n e)
    (meets : fits → Fits limit n e) (taken : n.step limit e = some n') :
    Steady kept fits limit n' ∧ (0 < limit → Closed n → Closed n') ∧ (0 < limit → fits → Gated limit n') := by
  have ⟨idle, gate, flag, count⟩ := steady
  cases e with
  | submit batches pending =>
    obtain ⟨⟨_, isOpen, two⟩, same⟩ := ite_none_right_eq_some.mp taken
    cases same
    -- The open gate has kept a place for one batch.
    have room (h : fits) (serves : ¬ Idle n) : n.blockInflight + batches.length ≤ limit := by
      have below := gated h serves isOpen
      have second := meets h (by simpa using fun follower => serves (.inl follower))
      omega
    obtain ⟨submitted, same | serves⟩ := steady.submit isOpen room pending
    · exact ⟨submitted, fun _ closed => by rwa [same], fun _ h => (gated h).submit batches pending⟩
    · exact ⟨submitted, fun _ _ follower => absurd (.inl follower) serves, fun _ h => (gated h).submit batches pending⟩
  | timer batch =>
    obtain ⟨⟨_, ticking⟩, same⟩ := ite_none_right_eq_some.mp taken
    cases same
    have serves : ¬ Idle n := fun h => by simp [(idle h).2.1] at ticking
    have stopped : Steady kept fits limit { n with ticking := false } := ⟨fun h => absurd h serves, gate, flag, count⟩
    split
    case isTrue cut =>
      have room (h : fits) := meets h cut
      obtain ⟨proposed, still, more⟩ := stopped.propose serves (fun h => by grind -linarith) .normal
      refine ⟨proposed, fun _ _ follower => absurd (.inl follower) still, fun _ h _ isOpen => ?_⟩
      have := room h
      grind -linarith [Loop.propose]
    · exact ⟨stopped, fun _ closed => closed, fun _ h => gated h⟩
  | propose =>
    cases taken
    exact ⟨⟨idle, gate, flag, fun h => ⟨(count h).1, (Nat.sub_le ..).trans (count h).2.1, (count h).2.2⟩⟩,
      fun _ closed => closed, fun _ h => gated h⟩
  | apply app =>
    obtain ⟨_, same⟩ := ite_none_left_eq_some.mp taken
    cases same
    obtain ⟨written, same⟩ := (steady.observe unbroken).entries app.entries fun h serves => by
      have served := mt observe_idle serves
      exact meets h (by grind -linarith [Idle]) (by grind -linarith [Idle]) fun deposed => served (.inr deposed)
    exact ⟨written.resume _, fun positive _ => written.resume_closed positive _,
      fun positive h => written.gated_resume positive (((gated h).observe app).same same) _⟩
  | restart =>
    cases taken
    exact ⟨steady_newLoop, nofun, fun _ _ serves => absurd (.inl rfl) serves⟩

theorem Steady.flag_of_idle (steady : Steady True fits limit n) (idle : Idle n) (none : n.confChangeInProgress = false) :
    n.configInflight = false := by
  by_contra set
  have blocked := steady.flag trivial (by simpa using set)
  simp [none, (steady.idle idle).1] at blocked

theorem Steady.apply_serves (steady : Steady True False limit n) (positive : 0 < limit) (idle : Idle n)
    (taken : n.step limit (.apply app) = some n') (applied : app.msgInflight = false)
    (none : n'.confChangeInProgress = false) : n'.configInflight = false ∧ n'.submitC = true := by
  obtain ⟨_, same⟩ := ite_none_left_eq_some.mp taken
  have unbroken : Unbroken n (.apply app) := fun _ _ => by simp [(steady.idle idle).1]
  obtain ⟨written, still⟩ := (steady.observe fun _ => unbroken).entries app.entries nofun
  have idle := still.1.mpr (observe_idle (.inl idle))
  have flag := written.flag_of_idle idle
  have fresh := (written.idle idle).2.2
  cases same
  grind -linarith [Loop.resume, Idle]

/-- A node that lost no config block serves again. -/
theorem deposed_serves_again {events : List Event} (positive : 0 < limit)
    (run : Reaches (Loop.step limit) Unbroken newLoop events n) :
    (n.lead = false → n.confChangeInProgress = false → n.configInflight = false ∧ n.submitC = true) ∧
    (n.lead = true → n.justElected = true → n.confChangeInProgress = false → n.configInflight = false) ∧
    ∀ app n', n.lead = false ∨ n.justElected = true → n.step limit (.apply app) = some n' →
      app.msgInflight = false → n'.confChangeInProgress = false → n'.configInflight = false ∧ n'.submitC = true := by
  obtain ⟨steady, closed⟩ : Steady True False limit n ∧ Closed n := by
    refine run.invariant (fun _ n => Steady True False limit n ∧ Closed n) ⟨steady_newLoop, nofun⟩ ?_
    rintro _ t e u ⟨steady, closed⟩ unbroken taken
    obtain ⟨steady, closes, _⟩ := steady.step nofun (fun _ => unbroken) nofun taken
    exact ⟨steady, closes positive closed⟩
  refine ⟨fun follower none => ?_, fun _ elected none => steady.flag_of_idle (.inr elected) none,
    fun app n' idle taken applied none => steady.apply_serves positive idle taken applied none⟩
  have flag := steady.flag_of_idle (.inl follower) none
  refine ⟨flag, ?_⟩
  by_contra shut
  simpa [flag] using closed follower (by simpa using shut)

def elect : List Event :=
  [.apply ⟨some true, false, [], true⟩, .apply ⟨none, false, [.other], false⟩]

def configWritten : List Event :=
  elect ++ [.submit [.config false] false, .propose, .apply ⟨none, false, [.own], false⟩,
    .apply ⟨some false, false, [], false⟩]

theorem config_written_serves :
    ∃ n, Reaches (Loop.step 1) Unbroken newLoop configWritten n ∧ n.configInflight = false ∧ n.submitC = true := by
  have run : Reaches (Loop.step 1) Unbroken newLoop configWritten newLoop := reaches_of_checkRun (by decide)
  exact ⟨newLoop, run, (deposed_serves_again one_pos run).1 rfl rfl⟩

def configLost : List Event :=
  elect ++ [.submit [.config false] false, .apply ⟨some false, false, [], false⟩]

/-- The flag of a config block that is lost with the leadership stays set. -/
theorem config_lost_blocks : (∃ n, Reaches (Loop.step 1) (fun _ _ => True) newLoop configLost n ∧
      n.lead = false ∧ n.confChangeInProgress = false ∧ n.configInflight = true ∧ n.submitC = false) ∧
    ∃ n, Reaches (Loop.step 1) (fun _ _ => True) newLoop (configLost ++ elect) n ∧
      n.lead = true ∧ n.confChangeInProgress = false ∧ n.configInflight = true ∧ n.submitC = false :=
  ⟨⟨⟨false, false, false, true, false, false, 0, 0, false, []⟩, reaches_of_checkRun (by decide), by decide⟩,
    ⟨true, false, false, true, false, true, 0, 0, false, []⟩, reaches_of_checkRun (by decide), by decide⟩

/-- Where no step takes a place that the gate does not guard, the limit holds and no proposal panics. -/
theorem inflight_bounded {events : List Event} (positive : 0 < limit)
    (run : Reaches (Loop.step limit) (Fits limit) newLoop events n) : n.created.length ≤ limit ∧ n.panicked = false := by
  obtain ⟨steady, _⟩ : Steady False True limit n ∧ Gated limit n := by
    refine run.invariant (fun _ n => Steady False True limit n ∧ Gated limit n)
      ⟨steady_newLoop, fun serves => absurd (.inl rfl) serves⟩ ?_
    rintro _ t e u ⟨steady, gated⟩ meets taken
    obtain ⟨steady, _, gated⟩ := steady.step (fun _ => gated) nofun (fun _ => meets) taken
    exact ⟨steady, gated positive trivial⟩
  exact (steady.count trivial).2.2

def overflow : List Event :=
  elect ++ [.submit [] true, .submit [.normal] true]

theorem overflow_fits : ∃ n, Reaches (Loop.step 1) (Fits 1) newLoop (overflow ++ [.propose, .timer false]) n ∧
    n.submitC = false ∧ n.created.length ≤ 1 := by
  have run : Reaches (Loop.step 1) (Fits 1) newLoop (overflow ++ [.propose, .timer false])
    ⟨true, false, false, false, false, false, 1, 0, false, [.normal]⟩ := reaches_of_checkRun (by decide)
  exact ⟨_, run, rfl, (inflight_bounded one_pos run).1⟩

/-- The timer takes a place beyond the last one, or the last one with the gate open. -/
theorem timer_overruns : (∃ n, Reaches (Loop.step 1) (fun _ _ => True) newLoop (overflow ++ [.propose, .timer true]) n ∧
      n.created.length = 2) ∧
    (∃ n, Reaches (Loop.step 1) (fun _ _ => True) newLoop (overflow ++ [.timer true]) n ∧ n.panicked = true) ∧
    ∃ n, Reaches (Loop.step 1) (fun _ _ => True) newLoop
      (elect ++ [.submit [] true, .timer true, .propose, .submit [.normal] false]) n ∧ n.created.length = 2 :=
  ⟨⟨⟨true, false, false, false, false, false, 2, 1, false, [.normal, .normal]⟩, reaches_of_checkRun (by decide), rfl⟩,
    ⟨⟨true, false, false, false, false, false, 1, 1, true, [.normal]⟩, reaches_of_checkRun (by decide), rfl⟩,
    ⟨true, false, false, false, false, false, 2, 1, false, [.normal, .normal]⟩, reaches_of_checkRun (by decide), rfl⟩

end Fabric.Proof.Etcdraft.RunLoop
