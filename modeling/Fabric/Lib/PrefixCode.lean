import Mathlib

/-! # Prefix-free encodings

An encoding is prefix-free when an encoded value can be told apart from what follows it. -/

namespace Fabric.Lib.PrefixCode

open List

variable {α β : Type} {encode : α → List UInt8}

def PrefixFree (encode : α → List UInt8) : Prop :=
  ∀ a b r s, encode a ++ r = encode b ++ s → a = b ∧ r = s

theorem PrefixFree.injective (free : PrefixFree encode) : Function.Injective encode := by
  intro a b same
  exact (free a b [] [] (by rw [same])).1

def encodeVia (f : α → β) (encode : β → List UInt8) (a : α) : List UInt8 := encode (f a)

def encodeBool (b : Bool) : List UInt8 := [if b then 1 else 0]

def encodePair (encodeA : α → List UInt8) (encodeB : β → List UInt8) (p : α × β) : List UInt8 :=
  encodeA p.1 ++ encodeB p.2

def encodeList (encode : α → List UInt8) : List α → List UInt8
  | [] => [0]
  | a :: as => 1 :: (encode a ++ encodeList encode as)

def encodeBytes : List UInt8 → List UInt8 := encodeList fun b => [b]

def encodeNat : Nat → List UInt8 := encodeVia (fun n => List.replicate n ()) (encodeList fun _ => [])

theorem prefixFree_via {f : α → β} {encode : β → List UInt8} (free : PrefixFree encode)
    (injective : Function.Injective f) : PrefixFree (encodeVia f encode) := by
  intro a b r s same
  obtain ⟨images, rest⟩ := free _ _ r s same
  exact ⟨injective images, rest⟩

theorem prefixFree_bool : PrefixFree encodeBool := by
  intro a b r s same
  cases a <;> cases b <;> simp_all [encodeBool]

theorem prefixFree_pair {encodeA : α → List UInt8} {encodeB : β → List UInt8} (freeA : PrefixFree encodeA)
    (freeB : PrefixFree encodeB) : PrefixFree (encodePair encodeA encodeB) := by
  intro p q r s same
  simp only [encodePair, append_assoc] at same
  obtain ⟨first, same⟩ := freeA _ _ _ _ same
  obtain ⟨second, rest⟩ := freeB _ _ _ _ same
  exact ⟨Prod.ext first second, rest⟩

theorem prefixFree_list (free : PrefixFree encode) : PrefixFree (encodeList encode) := by
  intro as
  induction as with
  | nil =>
    intro bs r s same
    cases bs with
    | nil => simpa [encodeList] using same
    | cons b bs => simp [encodeList] at same
  | cons a as ih =>
    intro bs r s same
    cases bs with
    | nil => simp [encodeList] at same
    | cons b bs =>
      simp only [encodeList, cons_append, append_assoc, List.cons.injEq, true_and] at same
      obtain ⟨rfl, tails⟩ := free _ _ _ _ same
      obtain ⟨rfl, rest⟩ := ih bs r s tails
      exact ⟨rfl, rest⟩

theorem prefixFree_nat : PrefixFree encodeNat := by
  have unit : PrefixFree fun _ : Unit => [] := fun _ _ _ _ same => ⟨rfl, same⟩
  apply prefixFree_via (prefixFree_list unit)
  intro m n same
  simpa using congrArg List.length same

theorem prefixFree_bytes : PrefixFree encodeBytes := by
  apply prefixFree_list
  intro a b r s same
  simpa using same

theorem replicate_cons_inj {m n : Nat} {r s : List UInt8} (same : List.replicate m 1 ++ 0 :: r = List.replicate n 1 ++ 0 :: s) :
    m = n ∧ r = s := by
  induction m generalizing n with
  | zero =>
    cases n with
    | zero => simpa using same
    | succ n => simp [replicate_succ] at same
  | succ m ih =>
    cases n with
    | zero => simp [replicate_succ] at same
    | succ n =>
      obtain ⟨counts, rest⟩ := ih (by simpa [replicate_succ] using same)
      exact ⟨congrArg (· + 1) counts, rest⟩

end Fabric.Lib.PrefixCode
