import Fabric.Etcdraft.Membership

/-! # What a change of the consenter list does to the ids -/

namespace Fabric.Proof.Etcdraft

open Lib Fabric.Ledger Fabric.Etcdraft.Membership
open List hiding ext_getElem?

variable {e : Nat × Consenter} {before after : List Consenter} {a c : Consenter}
  {e' : Nat × Consenter} {cert : Bytes} {id : Nat}

def idByCert (l : List (Nat × Consenter)) (cert : Bytes) : Option Nat :=
  (l.find? fun e => e.2.clientTlsCert = cert).map (·.1)

def reassign (l : List (Nat × Consenter)) (fresh : Nat) (cs : List Consenter) : List (Nat × Consenter) :=
  cs.map fun c => ((idByCert l c.clientTlsCert).getD fresh, c)

structure Distinct (l : List (Nat × Consenter)) : Prop where
  ids : (l.map (·.1)).Nodup
  certs : (l.map (·.2.clientTlsCert)).Nodup

variable {l : List (Nat × Consenter)} {cs : List Consenter} {fresh : Nat}

theorem Distinct.eq_of_cert (distinct : Distinct l) (mem : e ∈ l) (mem' : e' ∈ l) (same : e.2.clientTlsCert = e'.2.clientTlsCert) : e = e' :=
  inj_on_of_nodup_map distinct.certs mem mem' same

theorem Distinct.eq_of_id (distinct : Distinct l) (mem : e ∈ l) (mem' : e' ∈ l) (same : e.1 = e'.1) : e = e' :=
  inj_on_of_nodup_map distinct.ids mem mem' same

theorem Distinct.idByCert_eq (distinct : Distinct l) (mem : e ∈ l) : idByCert l e.2.clientTlsCert = some e.1 := by
  unfold idByCert
  cases found : l.find? fun e' => e'.2.clientTlsCert = e.2.clientTlsCert with
  | none =>
    have absent := find?_eq_none.mp found e mem
    simp at absent
  | some e' =>
    have same : e'.2.clientTlsCert = e.2.clientTlsCert := by simpa using find?_some found
    rw [distinct.eq_of_cert (mem_of_find?_eq_some found) mem same]
    rfl

theorem idByCert_eq_some (found : idByCert l cert = some id) : ∃ c, (id, c) ∈ l ∧ c.clientTlsCert = cert := by
  unfold idByCert at found
  obtain ⟨e, first, rfl⟩ := Option.map_eq_some_iff.mp found
  exact ⟨e.2, mem_of_find?_eq_some first, by simpa using find?_some first⟩

theorem idByCert_eq_none : idByCert l cert = none ↔ cert ∉ l.map (·.2.clientTlsCert) := by
  simp [idByCert, find?_eq_none]

theorem reassign_self (distinct : Distinct l) : reassign l fresh (l.map (·.2)) = l := by
  unfold reassign
  rw [map_map]
  conv_rhs => rw [← map_id l]
  apply map_congr_left
  intro e mem
  simp [distinct.idByCert_eq mem]

def consentersOf (l : List (Nat × Consenter)) : Map Nat Consenter := putAll ∅ l

theorem get_consentersOf (distinct : (l.map (·.1)).Nodup) (id : Nat) (c : Consenter) : (consentersOf l)[id]? = some c ↔ (id, c) ∈ l := by
  rw [consentersOf, get_putAll, getElem?_empty, Option.or_none]
  constructor
  · exact mem_of_lastFor
  · exact lastFor_of_mem distinct

theorem mem_toList_consentersOf (distinct : (l.map (·.1)).Nodup) : e ∈ (consentersOf l).toList ↔ e ∈ l := by
  rw [← get_consentersOf distinct e.1 e.2]
  exact mem_toList_iff_getElem?_eq_some

theorem get_membershipByCert (distinct : Distinct l) (cert : Bytes) : (membershipByCert (consentersOf l))[cert]? = idByCert l cert := by
  have certs : ((consentersOf l).toList.map (fun e => (e.2.clientTlsCert, e.1))).map (·.1) |>.Nodup := by
    rw [map_map]
    apply List.Nodup.map_on _ (List.Nodup.of_map _ (nodup_keys _))
    intro e mem e' mem' same
    exact distinct.eq_of_cert ((mem_toList_consentersOf distinct.ids).mp mem) ((mem_toList_consentersOf distinct.ids).mp mem') same
  unfold membershipByCert
  rw [get_putAll, getElem?_empty, Option.or_none]
  cases found : idByCert l cert with
  | none =>
    rw [lastFor_eq_none]
    intro id mem
    obtain ⟨e, listed, same⟩ := mem_map.mp mem
    cases same
    exact idByCert_eq_none.mp found (mem_map.mpr ⟨e, (mem_toList_consentersOf distinct.ids).mp listed, rfl⟩)
  | some id =>
    obtain ⟨c, mem, rfl⟩ := idByCert_eq_some found
    apply lastFor_of_mem certs
    exact mem_map.mpr ⟨(id, c), (mem_toList_consentersOf distinct.ids).mpr mem, rfl⟩

section

variable (cur : Map Bytes Nat)

def knownEntries (cs : List Consenter) : List (Nat × Consenter) :=
  cs.filterMap fun c => cur[c.clientTlsCert]?.map fun id => (id, c)

def isNew (c : Consenter) : Bool := cur[c.clientTlsCert]?.isNone

def idsOrZero (cs : List Consenter) : List Nat := cs.map fun c => cur[c.clientTlsCert]?.getD 0

def newIndex (k index : Nat) : List Consenter → Nat
  | [] => index
  | c :: cs => newIndex (k + 1) (if isNew cur c then k else index) cs

theorem newIndex_of_none (k index : Nat) {cs : List Consenter} (known : ∀ c ∈ cs, isNew cur c = false) : newIndex cur k index cs = index := by
  induction cs generalizing k with
  | nil => rfl
  | cons c cs ih =>
    rw [newIndex, known c mem_cons_self]
    exact ih (k + 1) fun c' mem => known c' (mem_cons_of_mem _ mem)

theorem newIndex_append (k index : Nat) (new : isNew cur a = true) (known : ∀ c ∈ after, isNew cur c = false) :
    newIndex cur k index (before ++ a :: after) = k + before.length := by
  induction before generalizing k index with
  | nil =>
    rw [nil_append, newIndex, new]
    exact newIndex_of_none cur (k + 1) k known
  | cons c before ih =>
    rw [cons_append, newIndex, ih, length_cons]
    omega

theorem foldl_matchConsenter (rest done : List Consenter) (index : Nat) : (rest.zipIdx done.length).foldl (matchConsenter cur)
      ⟨idsOrZero cur done ++ List.replicate rest.length 0, putAll ∅ (knownEntries cur done), index, done.filter (isNew cur)⟩ =
      ⟨idsOrZero cur (done ++ rest), putAll ∅ (knownEntries cur (done ++ rest)),
        newIndex cur done.length index rest, (done ++ rest).filter (isNew cur)⟩ := by
  induction rest generalizing done index with
  | nil => simp [newIndex]
  | cons c rest ih =>
    rw [zipIdx_cons, foldl_cons]
    have step : matchConsenter cur
        ⟨idsOrZero cur done ++ List.replicate (c :: rest).length 0, putAll ∅ (knownEntries cur done), index,
          done.filter (isNew cur)⟩ (c, done.length) =
        ⟨idsOrZero cur (done ++ [c]) ++ List.replicate rest.length 0, putAll ∅ (knownEntries cur (done ++ [c])),
          if isNew cur c then done.length else index, (done ++ [c]).filter (isNew cur)⟩ := by
      have length : (idsOrZero cur done).length = done.length := by simp [idsOrZero]
      unfold matchConsenter
      cases found : cur[c.clientTlsCert]? with
      | none =>
        simp only [isNew, found, Option.isNone_none, if_true, Matching.mk.injEq, true_and]
        refine ⟨?_, ?_, ?_⟩
        · simp [idsOrZero, found, replicate_succ]
        · simp [knownEntries, found]
        · simp [isNew, found]
      | some id =>
        simp only [isNew, found, Option.isNone_some, Bool.false_eq_true, if_false, Matching.mk.injEq, true_and]
        refine ⟨?_, ?_, ?_⟩
        · rw [← length, set_append_right _ _ (Nat.le_refl _), Nat.sub_self]
          simp [idsOrZero, found, replicate_succ]
        · simp [knownEntries, found, putAll]
        · simp [isNew, found]
    rw [step]
    have later := ih (done ++ [c]) (if isNew cur c then done.length else index)
    rw [length_append, length_singleton] at later
    rw [later, append_assoc]
    rfl

theorem matchConsenters_eq (cs : List Consenter) : matchConsenters cur cs =
      ⟨idsOrZero cur cs, putAll ∅ (knownEntries cur cs), newIndex cur 0 0 cs, cs.filter (isNew cur)⟩ :=
  foldl_matchConsenter cur cs [] 0

end

theorem Distinct.reassign (distinct : Distinct l) (certs : (cs.map (·.clientTlsCert)).Nodup)
    (unique : ∀ c ∈ cs, ∀ c' ∈ cs, idByCert l c.clientTlsCert = none → idByCert l c'.clientTlsCert = none → c = c')
    (unused : ∀ c ∈ cs, idByCert l c.clientTlsCert ≠ some fresh) : Distinct (reassign l fresh cs) where
  ids := by
    unfold Etcdraft.reassign
    rw [map_map]
    apply List.Nodup.map_on _ (List.Nodup.of_map _ certs)
    intro c mem c' mem' same
    simp only [Function.comp_apply] at same
    cases found : idByCert l c.clientTlsCert with
    | none =>
      cases found' : idByCert l c'.clientTlsCert with
      | none => exact unique c mem c' mem' found found'
      | some id' =>
        rw [found, found'] at same
        exact absurd (found'.trans (congrArg some same.symm)) (unused c' mem')
    | some id =>
      cases found' : idByCert l c'.clientTlsCert with
      | none =>
        rw [found, found'] at same
        exact absurd (found.trans (congrArg some same)) (unused c mem)
      | some id' =>
        rw [found, found'] at same
        obtain ⟨x, listed, cert⟩ := idByCert_eq_some found
        obtain ⟨x', listed', cert'⟩ := idByCert_eq_some found'
        have equal := distinct.eq_of_id listed listed' same
        apply inj_on_of_nodup_map certs mem mem'
        rw [← cert, ← cert']
        exact congrArg (fun e => e.2.clientTlsCert) equal
  certs := by
    unfold Etcdraft.reassign
    rw [map_map]
    exact certs

section

variable {cur : Map Bytes Nat} (read : ∀ cert, cur[cert]? = idByCert l cert)

include read

theorem isNew_iff : isNew cur c = true ↔ idByCert l c.clientTlsCert = none := by
  unfold isNew
  rw [read]
  exact Option.isNone_iff_eq_none

theorem isNew_eq_false : isNew cur c = false ↔ idByCert l c.clientTlsCert ≠ none := by
  rw [Ne, ← isNew_iff read]
  exact Bool.eq_false_iff

theorem reassign_of_known (fresh : Nat) (known : ∀ c ∈ cs, isNew cur c = false) : reassign l fresh cs = knownEntries cur cs := by
  induction cs with
  | nil => rfl
  | cons c cs ih =>
    have here := (isNew_eq_false read).mp (known c mem_cons_self)
    obtain ⟨id, found⟩ := Option.ne_none_iff_exists'.mp here
    have later := ih fun c' mem => known c' (mem_cons_of_mem _ mem)
    simp only [reassign, map_cons, found, Option.getD_some] at later ⊢
    rw [later]
    simp [knownEntries, read, found]

theorem idsOrZero_of_known (fresh : Nat) (known : ∀ c ∈ cs, isNew cur c = false) : idsOrZero cur cs = (reassign l fresh cs).map (·.1) := by
  unfold idsOrZero reassign
  rw [map_map]
  apply map_congr_left
  intro c mem
  obtain ⟨id, found⟩ := Option.ne_none_iff_exists'.mp ((isNew_eq_false read).mp (known c mem))
  simp [read, found]

theorem set_newIndex (new : isNew cur a = true) (known : ∀ c ∈ before ++ after, isNew cur c = false) :
    (idsOrZero cur (before ++ a :: after)).set (newIndex cur 0 0 (before ++ a :: after)) fresh =
      (reassign l fresh (before ++ a :: after)).map (·.1) := by
  obtain ⟨knownBefore, knownAfter⟩ := forall_mem_append.mp known
  rw [newIndex_append cur 0 0 new knownAfter, Nat.zero_add]
  have split : idsOrZero cur (before ++ a :: after) = idsOrZero cur before ++ 0 :: idsOrZero cur after := by
    have absent := (isNew_iff read).mp new
    simp [idsOrZero, read, absent]
  have length : (idsOrZero cur before).length = before.length := by simp [idsOrZero]
  rw [split, ← length, set_append_right _ _ (Nat.le_refl _), Nat.sub_self, set_cons_zero,
    idsOrZero_of_known read fresh knownBefore, idsOrZero_of_known read fresh knownAfter]
  simp [reassign, (isNew_iff read).mp new]

theorem insert_knownEntries (new : isNew cur a = true) (known : ∀ c ∈ before ++ after, isNew cur c = false)
    (unused : ∀ c ∈ after, idByCert l c.clientTlsCert ≠ some fresh) :
    (putAll ∅ (knownEntries cur (before ++ a :: after))).insert fresh a = consentersOf (reassign l fresh (before ++ a :: after)) := by
  obtain ⟨knownBefore, knownAfter⟩ := forall_mem_append.mp known
  have absent := (isNew_iff read).mp new
  have entries : knownEntries cur (before ++ a :: after) = knownEntries cur before ++ knownEntries cur after := by
    simp [knownEntries, read, absent]
  have assigned : reassign l fresh (before ++ a :: after) = knownEntries cur before ++ (fresh, a) :: knownEntries cur after := by
    rw [← reassign_of_known read fresh knownBefore, ← reassign_of_known read fresh knownAfter]
    simp [reassign, absent]
  have later : fresh ∉ (knownEntries cur after).map (·.1) := by
    intro mem
    obtain ⟨e, listed, same⟩ := mem_map.mp mem
    obtain ⟨c, here, found⟩ := mem_filterMap.mp listed
    obtain ⟨id, known, rfl⟩ := Option.map_eq_some_iff.mp found
    rw [read] at known
    exact unused c here (known.trans (congrArg some same))
  rw [entries, assigned, putAll_append, putAll_insert later]
  unfold consentersOf
  rw [putAll_append]
  rfl

end

def SameCerts (xs ys : List Consenter) : Prop :=
  ∀ cert, cert ∈ xs.map (·.clientTlsCert) ↔ cert ∈ ys.map (·.clientTlsCert)

structure Reassigned (l : List (Nat × Consenter)) (cs : List Consenter) (fresh : Nat) (ch : MembershipChanges) : Prop where
  ids : ch.newBlockMetadata.consenterIds = (reassign l fresh cs).map (·.1)
  consenters : ch.newConsenters = consentersOf (reassign l fresh cs)
  distinct : Distinct (reassign l fresh cs)
  below : ∀ e ∈ reassign l fresh cs, e.1 < ch.newBlockMetadata.nextConsenterId
  changed : ch.changed = false ↔ SameCerts (l.map (·.2)) cs

theorem mem_reassign (mem : e ∈ reassign l fresh cs) : e.1 = fresh ∨ e.1 ∈ l.map (·.1) := by
  obtain ⟨c, -, rfl⟩ := mem_map.mp mem
  cases found : idByCert l c.clientTlsCert with
  | none => exact .inl rfl
  | some id =>
    obtain ⟨x, listed, -⟩ := idByCert_eq_some found
    exact .inr (mem_map.mpr ⟨(id, x), listed, rfl⟩)

variable {md : BlockMetadata} {ch : MembershipChanges}

def removedEntries (l : List (Nat × Consenter)) (cs : List Consenter) : List (Nat × Consenter) :=
  (consentersOf l).toList.filter fun e => e.2.clientTlsCert ∉ cs.map (·.clientTlsCert)

theorem mem_removedEntries (distinct : Distinct l) :
    e ∈ removedEntries l cs ↔ e ∈ l ∧ e.2.clientTlsCert ∉ cs.map (·.clientTlsCert) := by
  unfold removedEntries
  rw [mem_filter, mem_toList_consentersOf distinct.ids, decide_eq_true_eq]

theorem unused_of_removed (distinct : Distinct l) (removed : (id, c) ∈ removedEntries l cs) :
    ∀ c' ∈ cs, idByCert l c'.clientTlsCert ≠ some id := by
  intro c' mem found
  obtain ⟨listed, absent⟩ := (mem_removedEntries distinct).mp removed
  obtain ⟨x, listed', cert⟩ := idByCert_eq_some found
  cases distinct.eq_of_id listed listed' rfl
  exact absent (mem_map.mpr ⟨c', mem, cert.symm⟩)

theorem unused_of_below (below : ∀ e ∈ l, e.1 < fresh) : ∀ c ∈ cs, idByCert l c.clientTlsCert ≠ some fresh := by
  intro c _ found
  obtain ⟨x, listed, -⟩ := idByCert_eq_some found
  exact Nat.lt_irrefl _ (below _ listed)

theorem exists_split_of_filter {cur : Map Bytes Nat} (one : cs.filter (isNew cur) = [a]) :
    ∃ before after, cs = before ++ a :: after ∧ isNew cur a = true ∧ ∀ c ∈ before ++ after, isNew cur c = false := by
  obtain ⟨before, after, rfl, knownBefore, new, rest⟩ := filter_eq_cons_iff.mp one
  refine ⟨before, after, rfl, new, ?_⟩
  intro c mem
  cases mem_append.mp mem with
  | inl mem => simpa using knownBefore c mem
  | inr mem => simpa using filter_eq_nil_iff.mp rest c mem

theorem below_reassign {next : Nat} (below : ∀ e ∈ l, e.1 < next) (belowFresh : fresh < next) : ∀ e ∈ reassign l fresh cs, e.1 < next := by
  intro e mem
  cases mem_reassign mem with
  | inl new => exact new ▸ belowFresh
  | inr old =>
    obtain ⟨e', listed, same⟩ := mem_map.mp old
    exact same ▸ below e' listed

section

variable (distinct : Distinct l) {cur : Map Bytes Nat} (read : ∀ cert, cur[cert]? = idByCert l cert)

include distinct read

theorem sameCerts_iff : SameCerts (l.map (·.2)) cs ↔ cs.filter (isNew cur) = [] ∧ removedEntries l cs = [] := by
  rw [filter_eq_nil_iff, eq_nil_iff_forall_not_mem]
  simp only [mem_removedEntries distinct, Bool.not_eq_true, isNew_eq_false read, Ne, idByCert_eq_none, not_not, not_and]
  unfold SameCerts
  rw [map_map]
  constructor
  · intro same
    refine ⟨fun c mem => ?_, fun e mem => ?_⟩
    · exact (same c.clientTlsCert).mpr (mem_map.mpr ⟨c, mem, rfl⟩)
    · exact (same e.2.clientTlsCert).mp (mem_map.mpr ⟨e, mem, rfl⟩)
  · intro ⟨known, kept⟩ cert
    constructor
    · intro mem
      obtain ⟨e, listed, rfl⟩ := mem_map.mp mem
      exact kept e listed
    · intro mem
      obtain ⟨c, listed, rfl⟩ := mem_map.mp mem
      exact known c listed

theorem mem_ids_reassign : id ∈ (reassign l fresh cs).map (·.1) ↔
      id ∈ l.map (·.1) ∧ id ∉ (removedEntries l cs).map (·.1) ∨ id = fresh ∧ cs.filter (isNew cur) ≠ [] := by
  constructor
  · intro mem
    obtain ⟨c, listed, rfl⟩ : ∃ c ∈ cs, (idByCert l c.clientTlsCert).getD fresh = id := by
      simpa [reassign] using mem
    cases found : idByCert l c.clientTlsCert with
    | none => exact .inr ⟨rfl, ne_nil_of_mem (mem_filter.mpr ⟨listed, (isNew_iff read).mpr found⟩)⟩
    | some id =>
      obtain ⟨x, old, _⟩ := idByCert_eq_some found
      refine .inl ⟨mem_map.mpr ⟨_, old, rfl⟩, fun removed => ?_⟩
      obtain ⟨⟨_, x'⟩, isRemoved, rfl⟩ := mem_map.mp removed
      exact unused_of_removed distinct isRemoved c listed found
  · rintro (⟨mem, kept⟩ | ⟨rfl, added⟩)
    · obtain ⟨e, listed, rfl⟩ := mem_map.mp mem
      have still : e.2.clientTlsCert ∈ cs.map (·.clientTlsCert) := by
        by_contra gone
        exact kept (mem_map_of_mem ((mem_removedEntries distinct).mpr ⟨listed, gone⟩))
      obtain ⟨c, here, same⟩ := mem_map.mp still
      refine mem_map.mpr ⟨_, mem_map.mpr ⟨c, here, rfl⟩, ?_⟩
      rw [same, distinct.idByCert_eq listed]
      rfl
    · obtain ⟨c, mem⟩ := exists_mem_of_ne_nil _ added
      obtain ⟨here, new⟩ := mem_filter.mp mem
      refine mem_map.mpr ⟨_, mem_map.mpr ⟨c, here, rfl⟩, ?_⟩
      rw [(isNew_iff read).mp new]
      rfl

variable (certs : (cs.map (·.clientTlsCert)).Nodup)

include certs

theorem distinct_reassign_of_one (few : ∀ c ∈ cs.filter (isNew cur), c = a)
    (unused : ∀ c ∈ cs, idByCert l c.clientTlsCert ≠ some fresh) :
    Distinct (reassign l fresh cs) := by
  apply distinct.reassign certs _ unused
  intro c mem c' mem' new new'
  rw [few c (mem_filter.mpr ⟨mem, (isNew_iff read).mpr new⟩), few c' (mem_filter.mpr ⟨mem', (isNew_iff read).mpr new'⟩)]

theorem reassigned_of_added (one : cs.filter (isNew cur) = [a]) (unused : ∀ c ∈ cs, idByCert l c.clientTlsCert ≠ some fresh)
    (ids : ch.newBlockMetadata.consenterIds = (idsOrZero cur cs).set (newIndex cur 0 0 cs) fresh)
    (consenters : ch.newConsenters = (putAll ∅ (knownEntries cur cs)).insert fresh a)
    (below : ∀ e ∈ l, e.1 < ch.newBlockMetadata.nextConsenterId)
    (belowFresh : fresh < ch.newBlockMetadata.nextConsenterId) (changed : ch.changed = true) : Reassigned l cs fresh ch := by
  have few : ∀ c ∈ cs.filter (isNew cur), c = a := by
    intro c mem
    rw [one] at mem
    exact mem_singleton.mp mem
  obtain ⟨before, after, rfl, new, known⟩ := exists_split_of_filter one
  refine ⟨?_, ?_, distinct_reassign_of_one distinct read certs few unused, below_reassign below belowFresh, ?_⟩
  · rw [ids]
    exact set_newIndex read new known
  · rw [consenters]
    apply insert_knownEntries read new known
    intro c mem
    exact unused c (mem_append_right _ (mem_cons_of_mem _ mem))
  · rw [sameCerts_iff distinct read, one, changed]
    simp

theorem reassigned_of_known (none : cs.filter (isNew cur) = []) (ids : ch.newBlockMetadata.consenterIds = idsOrZero cur cs)
    (consenters : ch.newConsenters = putAll ∅ (knownEntries cur cs)) (below : ∀ e ∈ l, e.1 < ch.newBlockMetadata.nextConsenterId)
    (changed : ch.changed = false ↔ removedEntries l cs = []) : Reassigned l cs ch.newBlockMetadata.nextConsenterId ch := by
  have known : ∀ c ∈ cs, isNew cur c = false := by
    intro c mem
    simpa using filter_eq_nil_iff.mp none c mem
  refine ⟨?_, ?_, ?_, ?_, ?_⟩
  · rw [ids]
    exact idsOrZero_of_known read _ known
  · rw [consenters, consentersOf, reassign_of_known read _ known]
  · apply distinct.reassign certs _ (unused_of_below below)
    intro c mem _ _ new
    exact absurd new ((isNew_eq_false read).mp (known c mem))
  · intro e mem
    obtain ⟨c, here, rfl⟩ := mem_map.mp mem
    obtain ⟨id, found⟩ := Option.ne_none_iff_exists'.mp ((isNew_eq_false read).mp (known c here))
    obtain ⟨x, listed, -⟩ := idByCert_eq_some found
    simpa [found] using below _ listed
  · rw [sameCerts_iff distinct read, changed]
    simp [none]

end

def applyConfChange (voters : Finset Nat) : Option ConfChange → Finset Nat
  | none => voters
  | some (.addNode id) => insert id voters
  | some (.removeNode id) => voters.erase id

/-- What is added and removed, the id that a new consenter gets and the change of the Raft configuration. -/
def Shape (l : List (Nat × Consenter)) (cs : List Consenter) (md : BlockMetadata) (fresh : Nat) (ch : MembershipChanges) : Prop :=
  ch.addedNodes = cs.filter (isNew (membershipByCert (consentersOf l))) ∧ ch.removedNodes = (removedEntries l cs).map (·.2) ∧
  match ch.addedNodes, removedEntries l cs with
  | [_], [e] => fresh = e.1 ∧ ch.confChange = none ∧ ch.newBlockMetadata.nextConsenterId = md.nextConsenterId
  | [_], [] => fresh = md.nextConsenterId ∧ ch.confChange = some (.addNode md.nextConsenterId) ∧
    ch.newBlockMetadata.nextConsenterId = md.nextConsenterId + 1
  | [], [e] => ch.confChange = some (.removeNode e.1) ∧ ch.newBlockMetadata.nextConsenterId = md.nextConsenterId
  | [], [] => ch.confChange = none ∧ ch.newBlockMetadata.nextConsenterId = md.nextConsenterId
  | _, _ => False

theorem computeMembershipChanges_spec (distinct : Distinct l) (below : ∀ e ∈ l, e.1 < md.nextConsenterId)
    (certs : (cs.map (·.clientTlsCert)).Nodup) (computed : computeMembershipChanges md (consentersOf l) cs = .ok ch) :
    ∃ fresh, Reassigned l cs fresh ch ∧ Shape l cs md fresh ch := by
  have read := get_membershipByCert distinct
  unfold computeMembershipChanges at computed
  rw [matchConsenters_eq] at computed
  dsimp only at computed
  split at computed
  case h_1 added deletedNodeID c oneAdded oneRemoved =>
    cases computed
    replace oneRemoved : removedEntries l cs = [(deletedNodeID, c)] := oneRemoved
    have removed : (deletedNodeID, c) ∈ removedEntries l cs := by
      rw [oneRemoved]
      exact mem_singleton_self _
    exact ⟨deletedNodeID, reassigned_of_added distinct read certs oneAdded (unused_of_removed distinct removed) rfl rfl below
      (below _ ((mem_removedEntries distinct).mp removed).1) rfl, by simp [Shape, oneAdded, oneRemoved]⟩
  case h_2 added oneAdded noneRemoved =>
    cases computed
    replace noneRemoved : removedEntries l cs = [] := noneRemoved
    exact ⟨md.nextConsenterId, reassigned_of_added distinct read certs oneAdded (unused_of_below below) rfl rfl
      (fun e mem => Nat.lt_succ_of_lt (below e mem)) (Nat.lt_succ_self _) rfl,
      by simp [Shape, oneAdded, noneRemoved]⟩
  case h_3 deletedNodeID c noneAdded oneRemoved =>
    cases computed
    replace oneRemoved : removedEntries l cs = [(deletedNodeID, c)] := oneRemoved
    have removed : (deletedNodeID, c) ∈ removedEntries l cs := by
      rw [oneRemoved]
      exact mem_singleton_self _
    refine ⟨_, reassigned_of_known distinct read certs noneAdded rfl ?_ below ?_, by simp [Shape, noneAdded, oneRemoved]⟩
    · apply ext_getElem?
      intro k
      rw [getElem?_erase]
      split
      · rename_i same
        rw [Std.LawfulEqCmp.compare_eq_iff_eq] at same
        subst same
        rw [get_putAll, getElem?_empty, Option.or_none, eq_comm, lastFor_eq_none]
        intro v mem
        obtain ⟨c', here, found⟩ := mem_filterMap.mp mem
        obtain ⟨id, known, equal⟩ := Option.map_eq_some_iff.mp found
        cases equal
        exact unused_of_removed distinct removed v here (read _ ▸ known)
      · rfl
    · simp [MembershipChanges.changed, oneRemoved]
  case h_4 noneAdded noneRemoved =>
    cases computed
    replace noneRemoved : removedEntries l cs = [] := noneRemoved
    refine ⟨_, reassigned_of_known distinct read certs noneAdded rfl rfl below ?_, by simp [Shape, noneAdded, noneRemoved]⟩
    simp [MembershipChanges.changed, noneRemoved]
  case h_5 => cases computed

theorem computeMembershipChanges_congr {md' : BlockMetadata} (next : md'.nextConsenterId = md.nextConsenterId)
    (computed : computeMembershipChanges md (consentersOf l) cs = .ok ch) (reassigned : Reassigned l cs fresh ch) :
    ∃ ch', computeMembershipChanges md' (consentersOf l) cs = .ok ch' ∧ Reassigned l cs fresh ch' ∧
      ch'.newBlockMetadata.nextConsenterId = ch.newBlockMetadata.nextConsenterId := by
  have mine : computeMembershipChanges md' (consentersOf l) cs =
      .ok { ch with newBlockMetadata := { ch.newBlockMetadata with raftIndex := md'.raftIndex } } := by
    unfold computeMembershipChanges at computed ⊢
    dsimp only at computed ⊢
    split at computed
    all_goals cases computed
    all_goals simp [next]
  refine ⟨_, mine, ?_, rfl⟩
  exact { reassigned with }

theorem next_of_unchanged {m : Map Nat Consenter} (computed : computeMembershipChanges md m cs = .ok ch)
    (unchanged : ch.changed = false) : ch.newBlockMetadata.nextConsenterId = md.nextConsenterId := by
  unfold computeMembershipChanges at computed
  dsimp only at computed
  split at computed
  all_goals cases computed
  all_goals simp [MembershipChanges.changed] at unchanged ⊢

theorem computeMembershipChanges_of_sameCerts (distinct : Distinct l) (same : SameCerts (l.map (·.2)) cs) :
    ∃ ch, computeMembershipChanges md (consentersOf l) cs = .ok ch ∧ ch.changed = false := by
  obtain ⟨noneAdded, noneRemoved⟩ := (sameCerts_iff distinct (get_membershipByCert distinct)).mp same
  unfold computeMembershipChanges
  rw [matchConsenters_eq]
  dsimp only
  rw [noneAdded, show List.filter _ (consentersOf l).toList = [] from noneRemoved]
  exact ⟨_, rfl, rfl⟩

end Fabric.Proof.Etcdraft
