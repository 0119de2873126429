import Fabric.Lib.Result

/-! # Incremental trees of hashes -/

namespace Fabric.Lib.HashLevels

open List

variable {H : Type} (deg : Nat) (comb : List H → Result H)
  {h : H} {level : List H} {upper levels levels' : List (List H)} {carry : Option H} {xs : List H}

def push (h : H) : List (List H) → Result (List (List H))
  | [] => .ok [[h]]
  | level :: upper =>
    if (level ++ [h]).length ≤ deg then .ok ((level ++ [h]) :: upper)
    else do
      let joined ← comb (level ++ [h])
      let upper ← push joined upper
      .ok ([] :: upper)

/-- Every level below the top is joined into the one above it; `carry` is the hash handed up. -/
def complete (carry : Option H) : List (List H) → Result (List (List H))
  | [] => .ok []
  | [top] =>
    if (top ++ carry.toList).length ≤ deg then .ok [top ++ carry.toList]
    else do
      let joined ← comb (top ++ carry.toList)
      .ok [[], [joined]]
  | level :: upper =>
    match level ++ carry.toList with
    | [] => do
      let upper ← complete none upper
      .ok ([] :: upper)
    | [h] => do
      let upper ← complete (some h) upper
      .ok ([] :: upper)
    | hashes => do
      let h ← comb hashes
      let upper ← complete (some h) upper
      .ok ([] :: upper)

def top (levels : List (List H)) : List H := levels.getLastD []

/-- The tree has grown: it is higher, or its top level was only appended to. -/
def Grown (levels levels' : List (List H)) : Prop :=
  levels.length < levels'.length ∨ levels.length = levels'.length ∧ top levels <+: top levels'

theorem Grown.refl (levels : List (List H)) : Grown levels levels :=
  .inr ⟨rfl, prefix_refl _⟩

@[simp] theorem top_cons_cons (level next : List H) (upper : List (List H)) : top (level :: next :: upper) = top (next :: upper) := by
  simp [top]

private theorem Grown.under {level level' : List H} {upper upper' : List (List H)} (grown : Grown upper upper')
    (ne : upper ≠ []) : Grown (level :: upper) (level' :: upper') := by
  rcases grown with higher | ⟨same, appended⟩
  · exact .inl (by simpa using higher)
  · refine .inr ⟨by simpa using same, ?_⟩
    cases upper with
    | nil => exact absurd rfl ne
    | cons a as =>
      cases upper' with
      | nil => simp at same
      | cons b bs => simpa using appended

variable {deg comb}

theorem push_nil (pushed : push deg comb h [] = .ok levels') : levels' = [[h]] := (ok.inj pushed).symm

theorem push_cons (pushed : push deg comb h (level :: upper) = .ok levels') : level.length < deg ∧ levels' = (level ++ [h]) :: upper ∨
      ∃ joined upper', deg ≤ level.length ∧ push deg comb joined upper = .ok upper' ∧ levels' = [] :: upper' := by
  rw [push] at pushed
  split at pushed
  case isTrue fits =>
    cases pushed
    exact .inl ⟨by simpa using fits, rfl⟩
  case isFalse overflow =>
    simp only [bind_eq_ok, ok.injEq] at pushed
    obtain ⟨joined, _, upper', above, rfl⟩ := pushed
    exact .inr ⟨joined, upper', by simpa [Nat.lt_succ_iff] using overflow, above, rfl⟩

theorem push_grown (pushed : push deg comb h levels = .ok levels') : Grown levels levels' := by
  induction levels generalizing h levels' with
  | nil => exact .inl (by simp [push_nil pushed])
  | cons level upper ih =>
    obtain ⟨_, rfl⟩ | ⟨joined, upper', _, above, rfl⟩ := push_cons pushed
    · refine .inr ⟨by simp, ?_⟩
      cases upper with
      | nil => exact ⟨[h], by simp [top]⟩
      | cons next upper => simp
    · cases upper with
      | nil => exact .inl (by simp [push_nil above])
      | cons next upper => exact (ih above).under (by simp)

theorem complete_grown (done : complete deg comb carry levels = .ok levels') : Grown levels levels' := by
  fun_induction complete deg comb carry levels generalizing levels' with
  | case1 =>
    cases done
    exact .refl _
  | case2 top carry fits =>
    cases done
    exact .inr ⟨rfl, by simp [HashLevels.top]⟩
  | case3 =>
    simp only [bind_eq_ok, ok.injEq] at done
    obtain ⟨joined, _, rfl⟩ := done
    exact .inl (by simp)
  | case4 _ _ _ some _ ih | case5 _ _ _ some _ _ ih =>
    simp only [bind_eq_ok, ok.injEq] at done
    obtain ⟨upper', above, rfl⟩ := done
    exact (ih above).under some
  | case6 _ _ _ some _ _ ih =>
    simp only [bind_eq_ok, ok.injEq] at done
    obtain ⟨joined, _, upper', above, rfl⟩ := done
    exact (ih joined above).under some

theorem push_nonempty (pushed : push deg comb h levels = .ok levels') : levels'.length ≠ 1 ∨ top levels' ≠ [] := by
  cases levels with
  | nil => exact .inr (by simp [push_nil pushed, top])
  | cons level upper =>
    obtain ⟨_, rfl⟩ | ⟨joined, upper', _, above, rfl⟩ := push_cons pushed
    · cases upper with
      | nil => exact .inr (by simp [top])
      | cons next upper => exact .inl (by simp)
    · have higher : upper'.length ≠ 0 := by
        rcases push_grown above with longer | ⟨same, _⟩
        · omega
        · cases upper with
          | nil => simp [push_nil above]
          | cons next upper => simp [← same]
      exact .inl (by simpa using higher)

section

variable (total : ∀ hashes, ∃ h, comb hashes = .ok h)

include total

theorem push_total (h : H) (levels : List (List H)) : ∃ levels', push deg comb h levels = .ok levels' := by
  induction levels generalizing h with
  | nil => exact ⟨_, rfl⟩
  | cons level upper ih =>
    rw [push]
    split
    · exact ⟨_, rfl⟩
    · obtain ⟨joined, built⟩ := total (level ++ [h])
      obtain ⟨upper', above⟩ := ih joined
      exact ⟨[] :: upper', by simp [built, above, bind, Except.bind]⟩

theorem complete_total (carry : Option H) (levels : List (List H)) : ∃ levels', complete deg comb carry levels = .ok levels' := by
  fun_induction complete deg comb carry levels with
  | case1 => exact ⟨_, rfl⟩
  | case2 carry top fits => exact ⟨_, rfl⟩
  | case3 carry top overflow =>
    obtain ⟨joined, built⟩ := total (top ++ carry.toList)
    exact ⟨_, by simp [built, bind, Except.bind]; rfl⟩
  | case4 carry level upper _ _ ih =>
    obtain ⟨upper', above⟩ := ih
    exact ⟨[] :: upper', by simp [above, bind, Except.bind]⟩
  | case5 carry level upper _ h _ ih =>
    obtain ⟨upper', above⟩ := ih
    exact ⟨[] :: upper', by simp [above, bind, Except.bind]⟩
  | case6 carry level upper _ _ _ ih =>
    obtain ⟨h, built⟩ := total (level ++ carry.toList)
    obtain ⟨upper', above⟩ := ih h
    exact ⟨[] :: upper', by simp [built, above, bind, Except.bind]⟩

end

section

variable (deg) in
def weight : List (List H) → Nat
  | [] => 0
  | level :: upper => level.length + (deg + 1) * weight upper

variable (deg) in
def Bounded (levels : List (List H)) : Prop := ∀ level ∈ levels, level.length ≤ deg

theorem push_bounded (pos : 1 ≤ deg) (bounded : Bounded deg levels)
    (pushed : push deg comb h levels = .ok levels') : Bounded deg levels' := by
  induction levels generalizing h levels' with
  | nil => simpa [Bounded, push_nil pushed] using pos
  | cons level upper ih =>
    obtain ⟨below, above⟩ := forall_mem_cons.mp bounded
    obtain ⟨fits, rfl⟩ | ⟨joined, upper', _, raised, rfl⟩ := push_cons pushed
    · exact forall_mem_cons.mpr ⟨by simpa using fits, above⟩
    · exact forall_mem_cons.mpr ⟨by simp, ih above raised⟩

theorem push_weight (bounded : Bounded deg levels) (pushed : push deg comb h levels = .ok levels') :
    weight deg levels' = weight deg levels + 1 := by
  induction levels generalizing h levels' with
  | nil => simp [push_nil pushed, weight]
  | cons level upper ih =>
    obtain ⟨below, above⟩ := forall_mem_cons.mp bounded
    obtain ⟨_, rfl⟩ | ⟨joined, upper', overflow, raised, rfl⟩ := push_cons pushed
    · simp only [weight, length_append, length_singleton]
      omega
    · have full : level.length = deg := below.antisymm overflow
      simp only [weight, ih above raised, length_nil, full]
      ring

theorem push_top (ne : levels ≠ []) (bounded : Bounded deg levels) (pushed : push deg comb h levels = .ok levels') :
    (levels'.length = levels.length ∧ (top levels' = top levels ∨ ∃ h', top levels' = top levels ++ [h'])) ∨
      (levels'.length = levels.length + 1 ∧ (top levels).length = deg ∧ ∃ h', top levels' = [h']) := by
  induction levels generalizing h levels' with
  | nil => exact absurd rfl ne
  | cons level upper ih =>
    obtain ⟨below, above⟩ := forall_mem_cons.mp bounded
    obtain ⟨_, rfl⟩ | ⟨joined, upper', overflow, raised, rfl⟩ := push_cons pushed
    · left
      cases upper with
      | nil => exact ⟨rfl, .inr ⟨h, rfl⟩⟩
      | cons next upper => exact ⟨rfl, .inl (by simp)⟩
    · cases upper with
      | nil =>
        obtain rfl := push_nil raised
        exact .inr ⟨rfl, below.antisymm overflow, joined, rfl⟩
      | cons next upper =>
        have higher := ih (by simp) above raised
        cases upper' with
        | nil => simp at higher
        | cons next' upper' => simpa using higher

theorem weight_lt (bounded : Bounded deg levels) : weight deg levels < (deg + 1) ^ levels.length := by
  induction levels with
  | nil => simp [weight]
  | cons level upper ih =>
    obtain ⟨below, above⟩ := forall_mem_cons.mp bounded
    have step : (deg + 1) * (weight deg upper + 1) ≤ (deg + 1) * (deg + 1) ^ upper.length := Nat.mul_le_mul_left _ (ih above)
    simp only [weight, length_cons, pow_succ']
    rw [mul_add, mul_one] at step
    omega

variable (deg) in
theorem weight_eq_top (ne : levels ≠ []) : weight deg levels =
      weight deg levels.dropLast + (deg + 1) ^ (levels.length - 1) * (top levels).length := by
  induction levels with
  | nil => exact absurd rfl ne
  | cons level upper ih =>
    cases upper with
    | nil => simp [weight, top]
    | cons next upper =>
      have above := ih (by simp)
      simp only [weight, dropLast_cons_cons, length_cons, top_cons_cons, Nat.add_one_sub_one] at above ⊢
      rw [above, pow_succ']
      ring

variable (deg) in
theorem nil_of_weight_eq_zero (zero : weight deg levels = 0) : ∀ level ∈ levels, level = [] := by
  induction levels with
  | nil => simp
  | cons level upper ih =>
    simp only [weight, Nat.add_eq_zero_iff, length_eq_zero_iff, mul_eq_zero, false_or, Nat.succ_ne_zero] at zero
    exact forall_mem_cons.mpr ⟨zero.1, ih zero.2⟩

theorem complete_of_settled (settled : ∀ level ∈ levels.dropLast, level = []) (fits : (top levels).length ≤ deg)
    : complete deg comb none levels = .ok levels := by
  induction levels with
  | nil => rfl
  | cons level upper ih =>
    cases upper with
    | nil =>
      have whole : (level ++ (none : Option H).toList).length ≤ deg := by simpa [top] using fits
      rw [complete, if_pos whole]
      simp
    | cons next upper =>
      simp only [dropLast_cons_cons, forall_mem_cons] at settled
      obtain ⟨rfl, settled⟩ := settled
      have above := ih settled (by simpa using fits)
      rw [complete]
      · simp [above, bind, Except.bind]
      · simp

/-- All levels of a completed tree but the last are empty. -/
theorem complete_rule {p : List (List H) → Prop} (nil : p [])
    (single : ∀ level : List H, level.length ≤ max deg 1 → p [level]) (under : ∀ upper, p upper → p ([] :: upper))
    (done : complete deg comb carry levels = .ok levels') : p levels' := by
  fun_induction complete deg comb carry levels generalizing levels' with
  | case1 =>
    cases done
    exact nil
  | case2 top carry fits =>
    cases done
    exact single _ (fits.trans (le_max_left _ _))
  | case3 =>
    simp only [bind_eq_ok, ok.injEq] at done
    obtain ⟨joined, _, rfl⟩ := done
    exact under _ (single _ (le_max_right _ _))
  | case4 _ _ _ _ _ ih | case5 _ _ _ _ _ _ ih =>
    simp only [bind_eq_ok, ok.injEq] at done
    obtain ⟨upper', above, rfl⟩ := done
    exact under _ (ih above)
  | case6 _ _ _ _ _ _ ih =>
    simp only [bind_eq_ok, ok.injEq] at done
    obtain ⟨joined, _, upper', above, rfl⟩ := done
    exact under _ (ih joined above)

theorem complete_bounded (pos : 1 ≤ deg) (done : complete deg comb carry levels = .ok levels') : Bounded deg levels' := by
  refine complete_rule (by simp [Bounded]) (fun level fits => ?_) (fun upper above => ?_) done
  · rw [max_eq_left pos] at fits
    simpa [Bounded] using fits
  · exact forall_mem_cons.mpr ⟨by simp, above⟩

theorem complete_top_le (pos : 1 ≤ deg) (done : complete deg comb carry levels = .ok levels') : (top levels').length ≤ deg := by
  cases last : levels'.getLast? with
  | none => simp [top, getLastD_eq_getLast?, last]
  | some level =>
    rw [top, getLastD_eq_getLast?, last]
    exact complete_bounded pos done level (mem_of_getLast? last)

end

variable {R : Type} {leaf : H → List R → Prop}

variable (comb leaf) in
inductive Expands : List H → List R → Prop
  | nil : Expands [] []
  | leaf {h : H} {hashes : List H} {items rest : List R} : leaf h items → Expands hashes rest →
      Expands (h :: hashes) (items ++ rest)
  | node {h : H} {inner hashes : List H} {items rest : List R} : comb inner = .ok h → 2 ≤ inner.length →
      Expands inner items → Expands hashes rest → Expands (h :: hashes) (items ++ rest)

theorem Expands.append {ys : List H} {a b : List R} (first : Expands comb leaf xs a)
    (second : Expands comb leaf ys b) : Expands comb leaf (xs ++ ys) (a ++ b) := by
  induction first with
  | nil => exact second
  | leaf isLeaf _ ih =>
    rw [append_assoc]
    exact .leaf isLeaf ih
  | node joined several inside _ _ ih =>
    rw [append_assoc]
    exact .node joined several inside ih

theorem Expands.split {ys : List H} {s : List R} (expanded : Expands comb leaf (xs ++ ys) s) :
    ∃ a b, s = a ++ b ∧ Expands comb leaf xs a ∧ Expands comb leaf ys b := by
  induction xs generalizing s with
  | nil => exact ⟨[], s, rfl, .nil, expanded⟩
  | cons x xs ih =>
    cases expanded with
    | leaf isLeaf later =>
      obtain ⟨a, b, rfl, first, second⟩ := ih later
      exact ⟨_, b, (append_assoc _ _ _).symm, .leaf isLeaf first, second⟩
    | node joined several inside later =>
      obtain ⟨a, b, rfl, first, second⟩ := ih later
      exact ⟨_, b, (append_assoc _ _ _).symm, .node joined several inside first, second⟩

theorem Expands.combined {s : List R} (inside : Expands comb leaf xs s) (several : 2 ≤ xs.length)
    (joined : comb xs = .ok h) : Expands comb leaf [h] s := by
  have single := Expands.node joined several inside .nil
  rwa [append_nil] at single

def hashes (levels : List (List H)) : List H := levels.reverse.flatten

@[simp] theorem hashes_cons (level : List H) (upper : List (List H)) : hashes (level :: upper) = hashes upper ++ level := by
  simp [hashes]

theorem push_expands {s items : List R} (pos : 1 ≤ deg) (tree : Expands comb leaf (hashes levels) s)
    (added : Expands comb leaf [h] items) (pushed : push deg comb h levels = .ok levels')
    : Expands comb leaf (hashes levels') (s ++ items) := by
  induction levels generalizing h s items levels' with
  | nil =>
    cases tree
    cases pushed
    exact added
  | cons level upper ih =>
    rw [hashes_cons] at tree
    obtain ⟨a, b, rfl, above, below⟩ := tree.split
    rw [push] at pushed
    rw [append_assoc]
    split at pushed
    · cases pushed
      rw [hashes_cons]
      exact above.append (below.append added)
    · rename_i overflow
      simp only [bind_eq_ok, ok.injEq] at pushed
      obtain ⟨joined, isCombined, upper', raised, rfl⟩ := pushed
      have node := (below.append added).combined (by omega) isCombined
      simpa using ih above node raised

theorem complete_expands {s : List R} (pos : 1 ≤ deg) (ne : levels ≠ []) (tree : Expands comb leaf (hashes levels ++ carry.toList) s)
    (done : complete deg comb carry levels = .ok levels') : Expands comb leaf (hashes levels') s := by
  fun_induction complete deg comb carry levels generalizing levels' s with
  | case1 => exact absurd rfl ne
  | case2 top carry fits =>
    cases done
    simpa [hashes] using tree
  | case3 top carry overflow =>
    simp only [bind_eq_ok, ok.injEq] at done
    obtain ⟨joined, isCombined, rfl⟩ := done
    have node := Expands.combined (by simpa [hashes] using tree) (by omega) isCombined
    simpa [hashes] using node
  | case4 carry level upper some nothing ih | case5 carry level upper some _ nothing ih =>
    simp only [bind_eq_ok, ok.injEq] at done
    obtain ⟨upper', above, rfl⟩ := done
    rw [hashes_cons, append_assoc, nothing] at tree
    simpa using ih some tree above
  | case6 carry level upper some noneLeft noSingle ih =>
    simp only [bind_eq_ok, ok.injEq] at done
    obtain ⟨joined, isCombined, upper', above, rfl⟩ := done
    have several : 2 ≤ (level ++ carry.toList).length := by
      rcases left : level ++ carry.toList with _ | ⟨h, _ | ⟨h', rest⟩⟩
      · exact (noneLeft left).elim
      · exact (noSingle h left).elim
      · simp
    rw [hashes_cons, append_assoc] at tree
    obtain ⟨a, b, rfl, first, second⟩ := tree.split
    simpa using ih joined some (first.append (second.combined several isCombined)) above

theorem complete_hashes (done : complete deg comb carry levels = .ok levels') : hashes levels' = top levels' := by
  refine complete_rule (p := fun levels => hashes levels = top levels) rfl (fun level _ => by simp [hashes, top])
    (fun upper above => ?_) done
  rw [hashes_cons, append_nil, above]
  cases upper <;> rfl

theorem Expands.unique (leaves : ∀ h a b, leaf h a → leaf h b → a = b)
    (apart : ∀ h a xs b, leaf h a → comb xs = .ok h → 2 ≤ xs.length → ¬ Expands comb leaf xs b)
    (nodes : ∀ h xs ys a b, comb xs = .ok h → comb ys = .ok h → Expands comb leaf xs a → Expands comb leaf ys b → xs = ys)
    {hs : List H} {a b : List R} (first : Expands comb leaf hs a) (second : Expands comb leaf hs b) : a = b := by
  induction first generalizing b with
  | nil =>
    cases second
    rfl
  | leaf isLeaf _ ih =>
    cases second with
    | leaf isLeaf' later => rw [leaves _ _ _ isLeaf isLeaf', ih later]
    | node joined several inside _ => exact absurd inside (apart _ _ _ _ isLeaf joined several)
  | node joined several inside _ ihInside ih =>
    cases second with
    | leaf isLeaf later => exact absurd inside (apart _ _ _ _ isLeaf joined several)
    | node joined' several' inside' later =>
      obtain rfl := nodes _ _ _ _ _ joined joined' inside inside'
      rw [ihInside inside', ih later]

end Fabric.Lib.HashLevels
