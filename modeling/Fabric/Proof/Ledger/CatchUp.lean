import Fabric.Ledger.DBRecovery

/-! # The databases catch up with the block store -/

namespace Fabric.Proof.Ledger

open Fabric.Ledger.DBRecovery List Option

variable {B S H T : Type} {effs : Effects B S H} {l : KvLedger B S H} {apply : B → T → T} {db : Database T} {first n : Nat}
  {blocks : List B} {block : B} {r : Recoverable} {state history : Nat} {dbs : List Recoverable}

def next (db : Database T) : Nat := db.savepoint.elim 0 (· + 1)

theorem shouldRecover_eq (db : Database T) (lastBlock : Nat) : db.shouldRecover lastBlock = (decide (next db ≠ lastBlock + 1), next db) := by
  unfold Database.shouldRecover next
  cases db.savepoint <;> simp

/-- The database with every block that it lacks below the height, each applied once and in order. -/
def caughtUp (apply : B → T → T) (first : Nat) (blocks : List B) (db : Database T) (height : Nat) : Database T where
  savepoint := if next db < height then some (height - 1) else db.savepoint
  content := ((blocks.drop (next db - first)).take (height - next db)).foldl (fun content block => apply block content) db.content

theorem caughtUp_next (db : Database T) : caughtUp apply first blocks db (next db) = db := by
  simp [caughtUp]

theorem commitLostBlock_caughtUp (available : first ≤ next db) (behind : next db ≤ n) (found : blocks[n - first]? = some block) :
    (caughtUp apply first blocks db n).commitLostBlock apply n block = caughtUp apply first blocks db (n + 1) := by
  have count : n + 1 - next db = (n - next db) + 1 := by omega
  have position : (blocks.drop (next db - first))[n - next db]? = some block := by
    rw [getElem?_drop, ← found]
    congr 1
    omega
  have later : next db < n + 1 := by omega
  simp only [Database.commitLostBlock, caughtUp, count, take_add_one, position, foldl_append, if_pos later]
  rfl

theorem caughtUp_height {height : Nat} (stored : height ≠ 0) (behind : next db ≤ height)
    (isHeight : height = first + blocks.length) (available : first ≤ next db) : caughtUp apply first blocks db height =
      ⟨some (height - 1), (blocks.drop (next db - first)).foldl (fun content block => apply block content) db.content⟩ := by
  unfold caughtUp
  rw [take_of_length_le (by rw [length_drop]; omega)]
  congr 1
  split
  · rfl
  · have reached : next db = height := by omega
    unfold next at reached
    cases isSavepoint : db.savepoint <;> simp [isSavepoint] at reached ⊢ <;> omega

def reach (effs : Effects B S H) (l : KvLedger B S H) (state history : Nat) : KvLedger B S H :=
  { l with
    stateDB := caughtUp effs.state l.firstBlock l.blocks l.stateDB state
    historyDB := l.historyDB.map fun db => caughtUp effs.history l.firstBlock l.blocks db history }

structure Recovering (l : KvLedger B S H) : Prop where
  state : l.firstBlock ≤ next l.stateDB ∧ next l.stateDB ≤ l.height
  history : ∀ db ∈ l.historyDB, l.firstBlock ≤ next db ∧ next db ≤ l.height

structure Awaiting (l : KvLedger B S H) (dbs : List Recoverable) (state history n : Nat) : Prop where
  state : .state ∈ dbs → state = n ∧ next l.stateDB ≤ n
  history : .history ∈ dbs → history = n ∧ ∀ db ∈ l.historyDB, next db ≤ n

theorem Awaiting.tail {rest : List Recoverable} (awaiting : Awaiting l (r :: rest) state history n) : Awaiting l rest state history n :=
  ⟨fun mem => awaiting.state (mem_cons_of_mem _ mem), fun mem => awaiting.history (mem_cons_of_mem _ mem)⟩

def advanced (dbs : List Recoverable) (r : Recoverable) (height n : Nat) : Nat :=
  if r ∈ dbs then n else height

theorem advanced_advanced (dbs : List Recoverable) (r : Recoverable) (height m : Nat) :
    advanced dbs r (advanced dbs r height n) m = advanced dbs r height m := by
  unfold advanced
  split <;> rfl

theorem foldl_commitLostBlock (starting : Recovering l) (distinct : dbs.Nodup)
    (awaiting : Awaiting l dbs state history n) (found : l.blocks[n - l.firstBlock]? = some block) :
    dbs.foldl (KvLedger.commitLostBlock effs n block) (reach effs l state history) =
      reach effs l (advanced dbs .state state (n + 1)) (advanced dbs .history history (n + 1)) := by
  induction dbs generalizing state history with
  | nil => rfl
  | cons r rest ih =>
    obtain ⟨absent, distinctRest⟩ := nodup_cons.mp distinct
    rw [foldl_cons]
    cases r with
    | state =>
      obtain ⟨rfl, behind⟩ := awaiting.state mem_cons_self
      have committed : KvLedger.commitLostBlock effs state block (reach effs l state history) .state = reach effs l (state + 1) history := by
        simp [KvLedger.commitLostBlock, reach, commitLostBlock_caughtUp starting.state.1 behind found]
      rw [committed, ih distinctRest ⟨fun mem => absurd mem absent, awaiting.tail.history⟩]
      simp [advanced, absent]
    | history =>
      obtain ⟨rfl, behind⟩ := awaiting.history mem_cons_self
      have committed : KvLedger.commitLostBlock effs history block (reach effs l state history) .history =
          reach effs l state (history + 1) := by
        have each : l.historyDB.map (fun db => (caughtUp effs.history l.firstBlock l.blocks db history).commitLostBlock
            effs.history history block) = l.historyDB.map fun db =>
              caughtUp effs.history l.firstBlock l.blocks db (history + 1) :=
          Option.map_congr fun db mem => commitLostBlock_caughtUp (starting.history db mem).1 (behind db mem) found
        simp [KvLedger.commitLostBlock, reach, Function.comp_def, each]
      rw [committed, ih distinctRest ⟨awaiting.tail.state, fun mem => absurd mem absent⟩]
      simp [advanced, absent]

theorem recommitLostBlocks_reach (starting : Recovering l) (distinct : dbs.Nodup) {m : Nat}
    (awaiting : Awaiting l dbs state history n) (available : l.firstBlock ≤ n) (behind : n ≤ m)
    (positive : 0 < m) (stored : m ≤ l.height) : (reach effs l state history).recommitLostBlocks effs n (m - 1) dbs =
      .ok (reach effs l (advanced dbs .state state (m)) (advanced dbs .history history (m))) := by
  unfold KvLedger.recommitLostBlocks
  generalize count : m - 1 + 1 - n = k
  induction k generalizing n state history with
  | zero =>
    obtain rfl : m = n := by omega
    have unmoved : advanced dbs .state state (m) = state ∧ advanced dbs .history history (m) = history := by
      unfold advanced
      constructor
      · split
        · exact (awaiting.state ‹_›).1.symm
        · rfl
      · split
        · exact (awaiting.history ‹_›).1.symm
        · rfl
    rw [unmoved.1, unmoved.2]
    rfl
  | succ k ih =>
    have inside : n - l.firstBlock < l.blocks.length := by
      unfold KvLedger.height at stored
      omega
    have found := getElem?_eq_getElem inside
    have fetched : (reach effs l state history).getPvtDataAndBlockByNum n = .ok l.blocks[n - l.firstBlock] := by
      have notBefore : ¬ n < (reach effs l state history).firstBlock := available.not_gt
      have same : (reach effs l state history).blocks[n - (reach effs l state history).firstBlock]? = _ := found
      rw [KvLedger.getPvtDataAndBlockByNum, if_neg notBefore, same]
    have next : Awaiting l dbs (advanced dbs .state state (n + 1))
        (advanced dbs .history history (n + 1)) (n + 1) :=
      ⟨fun mem => ⟨if_pos mem, (awaiting.state mem).2.trans (Nat.le_succ n)⟩,
        fun mem => ⟨if_pos mem, fun db isDB => ((awaiting.history mem).2 db isDB).trans (Nat.le_succ n)⟩⟩
    rw [range'_succ, foldlM_cons, fetched]
    simp only [bind, Except.bind, foldl_commitLostBlock starting distinct awaiting found]
    have rest := ih next (by omega) (by omega) (by omega)
    rw [advanced_advanced, advanced_advanced] at rest
    exact rest

theorem newRecoverer_eq (stored : l.height ≠ 0) (isNext : l.shouldRecover (l.height - 1) r = some (decide (n ≠ l.height - 1 + 1), n))
    (available : l.firstBlock ≤ n) (behind : n ≤ l.height)
    : l.newRecoverer (l.height - 1) r = .ok (if n ≠ l.height then some (n, r) else none) := by
  have last : l.height - 1 + 1 = l.height := by omega
  have fresh : l.bootSnapshotMetadata.filter (n ≤ ·) = none := by
    unfold KvLedger.firstBlock at available
    cases isBoot : l.bootSnapshotMetadata with
    | none => rfl
    | some lastBlock =>
      rw [isBoot, elim_some] at available
      simp
      omega
  unfold KvLedger.newRecoverer
  simp only [isNext, fresh, last, decide_eq_true_eq]
  rw [if_neg (by omega)]

def historyNext (l : KvLedger B S H) : Nat := (l.historyDB.map next).getD l.height

theorem newRecoverer_history (stored : l.height ≠ 0) (starting : Recovering l) : l.newRecoverer (l.height - 1) .history =
    .ok (if historyNext l ≠ l.height then some (historyNext l, .history) else none) := by
  unfold historyNext
  cases isHistory : l.historyDB with
  | none => simp [KvLedger.newRecoverer, KvLedger.shouldRecover, isHistory]
  | some db =>
    obtain ⟨available, behind⟩ := starting.history db isHistory
    refine newRecoverer_eq stored ?_ available behind
    simp [KvLedger.shouldRecover, isHistory, shouldRecover_eq]

theorem reach_next (effs : Effects B S H) (l : KvLedger B S H) : reach effs l (next l.stateDB) (historyNext l) = l := by
  unfold reach historyNext
  rw [caughtUp_next]
  cases isHistory : l.historyDB with
  | none =>
    cases l
    simp_all
  | some db =>
    cases l
    simp_all [caughtUp_next]

theorem historyNext_bounds (starting : Recovering l) : l.firstBlock ≤ historyNext l ∧ historyNext l ≤ l.height ∧
    ∀ db ∈ l.historyDB, next db = historyNext l := by
  unfold historyNext
  cases isHistory : l.historyDB with
  | none => exact ⟨Nat.le_add_right _ _, Nat.le_refl _, nofun⟩
  | some db =>
    obtain ⟨available, behind⟩ := starting.history db isHistory
    exact ⟨available, behind, by simp⟩

theorem sync_eq (stored : l.height ≠ 0) (starting : Recovering l) :
    l.syncStateAndHistoryDBWithBlockstore effs = .ok (reach effs l l.height l.height) := by
  have state : l.newRecoverer (l.height - 1) .state = _ :=
    newRecoverer_eq stored (congrArg some (shouldRecover_eq _ _)) starting.state.1 starting.state.2
  have history := newRecoverer_history stored starting
  have last : l.height - 1 + 1 = l.height := by omega
  obtain ⟨stateAvailable, stateBehind⟩ := starting.state
  obtain ⟨historyAvailable, historyBehind, historyIs⟩ := historyNext_bounds starting
  have start := reach_next effs l
  unfold KvLedger.syncStateAndHistoryDBWithBlockstore
  simp only [if_neg stored, state, history, bind, Except.bind]
  generalize isState : next l.stateDB = s at *
  generalize historyNext l = h at *
  have positive : 0 < l.height := Nat.pos_of_ne_zero stored
  have run (rs : List Recoverable) (a b n m : Nat) (distinct : rs.Nodup) (state : .state ∈ rs → a = n ∧ s ≤ n)
      (history : .history ∈ rs → b = n ∧ h ≤ n) (available : l.firstBlock ≤ n) (behind : n ≤ m) (above : 0 < m)
      (inside : m ≤ l.height) : (reach effs l a b).recommitLostBlocks effs n (m - 1) rs =
        .ok (reach effs l (advanced rs .state a m) (advanced rs .history b m)) :=
    recommitLostBlocks_reach starting distinct ⟨fun mem => isState ▸ state mem,
      fun mem => ⟨(history mem).1, fun db isDB => historyIs db isDB ▸ (history mem).2⟩⟩ available behind above inside
  by_cases stateDone : s = l.height
  · by_cases historyDone : h = l.height
    · rw [stateDone, historyDone] at start
      simp [stateDone, historyDone, start]
    · have caught := run [.history] s h h l.height (by simp) (by simp) (by simp) historyAvailable historyBehind positive le_rfl
      rw [start] at caught
      simp [stateDone, historyDone, caught, advanced]
  · by_cases historyDone : h = l.height
    · have caught := run [.state] s h s l.height (by simp) (by simp) (by simp) stateAvailable stateBehind positive le_rfl
      rw [start] at caught
      simp [stateDone, historyDone, caught, advanced]
    · simp only [ne_eq, stateDone, historyDone, not_false_eq_true, if_true, toList_some, singleton_append]
      rcases Nat.lt_trichotomy s h with lower | rfl | higher
      · have first := run [.state] s h s h (by simp) (by simp) (by simp) stateAvailable lower.le (by omega) historyBehind
        have second := run [.state, .history] h h h l.height (by simp) (by simp [lower.le]) (by simp) historyAvailable
          historyBehind positive le_rfl
        rw [start] at first
        simp [lower.ne, Nat.lt_asymm lower, first, second, advanced]
      · have caught := run [.state, .history] s s s l.height (by simp) (by simp) (by simp) stateAvailable stateBehind positive le_rfl
        rw [start] at caught
        simp [caught, advanced]
      · have first := run [.history] s h h s (by simp) (by simp) (by simp) historyAvailable higher.le (by omega) stateBehind
        have second := run [.history, .state] s s s l.height (by simp) (by simp) (by simp [higher.le]) stateAvailable
          stateBehind positive le_rfl
        rw [start] at first
        simp [higher, higher.ne, first, second, advanced]

theorem sync_catches_up (effs : Effects B S H) (l : KvLedger B S H) (starting : Recovering l) :
    (l.height = 0 → l.syncStateAndHistoryDBWithBlockstore effs = .ok l) ∧
    (l.height ≠ 0 → ∃ l', l.syncStateAndHistoryDBWithBlockstore effs = .ok l' ∧
      l'.stateDB = ⟨some (l.height - 1), (l.blocks.drop (next l.stateDB - l.firstBlock)).foldl
        (fun content block => effs.state block content) l.stateDB.content⟩ ∧
      l'.historyDB = l.historyDB.map fun db => ⟨some (l.height - 1), (l.blocks.drop (next db - l.firstBlock)).foldl
        (fun content block => effs.history block content) db.content⟩) := by
  constructor
  · intro empty
    exact if_pos empty
  · intro stored
    refine ⟨_, sync_eq stored starting, caughtUp_height stored starting.state.2 rfl starting.state.1, ?_⟩
    apply Option.map_congr
    intro db isHistory
    exact caughtUp_height stored (starting.history db isHistory).2 rfl (starting.history db isHistory).1

def recordBlocks : Effects Nat (List Nat) (List Nat) := ⟨fun block log => log ++ [block], fun block log => log ++ [block]⟩

theorem lagging_caught_up :
    ∃ l', (⟨"ledger", some 4, [5, 6, 7], ⟨some 5, []⟩, some ⟨some 4, []⟩⟩ : KvLedger Nat (List Nat)
      (List Nat)).syncStateAndHistoryDBWithBlockstore
      recordBlocks = .ok l' ∧ l'.stateDB = ⟨some 7, [6, 7]⟩ ∧ l'.historyDB = some ⟨some 7, [5, 6, 7]⟩ :=
  (sync_catches_up recordBlocks ⟨"ledger", some 4, [5, 6, 7], ⟨some 5, []⟩, some ⟨some 4, []⟩⟩
    ⟨by decide, by simp [next, KvLedger.firstBlock, KvLedger.height]⟩).2 (by decide)

theorem emptyHistory_refused : ∃ message,
    (⟨"ledger", some 4, [5, 6, 7], ⟨some 5, []⟩, some ⟨none, []⟩⟩ : KvLedger Nat (List Nat)
      (List Nat)).syncStateAndHistoryDBWithBlockstore
      recordBlocks = .error (.error message) :=
  ⟨_, rfl⟩

end Fabric.Proof.Ledger
