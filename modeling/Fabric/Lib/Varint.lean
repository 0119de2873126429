import Fabric.Lib.PrefixRange

/-! # Variable length integers -/

namespace Fabric.Lib.Varint

open List Option

variable {n b a : Nat}

def encodeBytes : Nat → Nat → List UInt8
  | 0, _ => []
  | limit + 1, n =>
    if n < 128 then [UInt8.ofNat n] else UInt8.ofNat (n % 128 + 128) :: encodeBytes limit (n / 128)

def encode (n : Nat) : List UInt8 := encodeBytes 10 n

-- The number is returned with the bytes that follow it; the tenth byte can hold one bit.
def decodeBytes : Nat → List UInt8 → Option (Nat × List UInt8)
  | 0, _ => none
  | _ + 1, [] => none
  | limit + 1, b :: rest =>
    if b.toNat < 128 then (if limit = 0 ∧ 1 < b.toNat then none else some (b.toNat, rest))
    else (decodeBytes limit rest).map fun r => (b.toNat - 128 + 128 * r.1, r.2)

variable (bytes : List UInt8)

def decode : Option (Nat × List UInt8) := decodeBytes 10 bytes

theorem toNat_ofNat (small : n < 256) : (UInt8.ofNat n).toNat = n := by
  rw [UInt8.toNat_ofNat', Nat.mod_eq_of_lt small]

theorem decodeBytes_encodeBytes (limit n : Nat) (fits : n < 2 ^ (7 * limit + 1)) (rest : List UInt8) :
    decodeBytes (limit + 1) (encodeBytes (limit + 1) n ++ rest) = some (n, rest) := by
  induction limit generalizing n with
  | zero =>
    have small : n < 2 := by simpa using fits
    have byte := toNat_ofNat (n := n) (by omega)
    simp [encodeBytes, decodeBytes, show n < 128 by omega, byte, show n ≤ 1 by omega]
  | succ limit ih =>
    unfold encodeBytes
    split
    · rename_i small
      simp [decodeBytes, toNat_ofNat (n := n) (by omega), small]
    · rename_i large
      have byte := toNat_ofNat (n := n % 128 + 128) (by omega)
      have higher : n / 128 < 2 ^ (7 * limit + 1) := by
        rw [Nat.div_lt_iff_lt_mul (by omega)]
        have : 2 ^ (7 * limit + 1) * 128 = 2 ^ (7 * (limit + 1) + 1) := by ring
        omega
      rw [cons_append, decodeBytes, byte, ih _ higher, if_neg (by omega)]
      simp only [map_some, some.injEq, Prod.mk.injEq, and_true]
      omega

theorem decode_encode (fits : n < 2 ^ 64) (rest : List UInt8) : decode (encode n ++ rest) = some (n, rest) :=
  decodeBytes_encodeBytes 9 n fits rest

theorem encodeBytes_ne_nil (limit n : Nat) : encodeBytes (limit + 1) n ≠ [] := by
  unfold encodeBytes
  split <;> simp

theorem length_encodeBytes_le (k limit n : Nat) (fits : n < 2 ^ (7 * (k + 1))) : (encodeBytes limit n).length ≤ k + 1 := by
  induction k generalizing limit n with
  | zero =>
    cases limit with
    | zero => simp [encodeBytes]
    | succ limit => simp [encodeBytes, show n < 128 by simpa using fits]
  | succ k ih =>
    cases limit with
    | zero => simp [encodeBytes]
    | succ limit =>
      unfold encodeBytes
      split
      · simp
      · have higher : n / 128 < 2 ^ (7 * (k + 1)) := by
          rw [Nat.div_lt_iff_lt_mul (by omega)]
          have : 2 ^ (7 * (k + 1)) * 128 = 2 ^ (7 * (k + 1 + 1)) := by ring
          omega
        simpa using ih limit (n / 128) higher

theorem encode_ne_nil (n : Nat) : encode n ≠ [] := encodeBytes_ne_nil 9 n

theorem decode_take (fits : n < 2 ^ 56) (rest : List UInt8) :
    decode ((encode n ++ rest).take 8) = some (n, rest.take (8 - (encode n).length)) := by
  have short : (encode n).length ≤ 8 := length_encodeBytes_le 7 10 n fits
  rw [take_append, take_of_length_le short]
  exact decode_encode (by omega) _

def encodeLengthPrefixed (b : List UInt8) : List UInt8 := encode b.length ++ b

def decodeLengthPrefixed : Option (List UInt8 × List UInt8) :=
  (decode bytes).bind fun r => if r.2.length < r.1 then none else some (r.2.take r.1, r.2.drop r.1)

theorem decode_encodeLengthPrefixed {b : List UInt8} (fits : b.length < 2 ^ 64) (rest : List UInt8) :
    decodeLengthPrefixed (encodeLengthPrefixed b ++ rest) = some (b, rest) := by
  unfold decodeLengthPrefixed encodeLengthPrefixed
  rw [append_assoc, decode_encode fits]
  simp

def bigEndian (n : Nat) : Nat → List UInt8
  | 0 => []
  | k + 1 => UInt8.ofNat (n / 256 ^ k) :: bigEndian n k

def ofBigEndian : Nat := bytes.foldl (fun n b => n * 256 + b.toNat) 0

def encodeOrderPreserving (n : Nat) : List UInt8 :=
  let bytes := (bigEndian n 8).dropWhile (· == 0)
  UInt8.ofNat bytes.length :: bytes

def decodeOrderPreserving : List UInt8 → Option (Nat × List UInt8)
  | [] => none
  | size :: rest =>
    if 8 < size.toNat ∨ rest.length < size.toNat then none
    else some (ofBigEndian (rest.take size.toNat), rest.drop size.toNat)

theorem length_bigEndian (n k : Nat) : (bigEndian n k).length = k := by
  induction k with
  | zero => rfl
  | succ k ih => simp [bigEndian, ih]

theorem foldl_bigEndian (n k start : Nat) : (bigEndian n k).foldl (fun n b => n * 256 + b.toNat) start = start * 256 ^ k + n % 256 ^ k := by
  induction k generalizing start with
  | zero => simp [bigEndian, Nat.mod_one]
  | succ k ih =>
    rw [bigEndian, foldl_cons, ih, UInt8.toNat_ofNat', pow_succ 256 k, Nat.mod_mul]
    ring

theorem ofBigEndian_dropWhile : ofBigEndian (bytes.dropWhile (· == 0)) = ofBigEndian bytes := by
  induction bytes with
  | nil => rfl
  | cons b bytes ih =>
    by_cases zero : b = 0
    · subst zero
      simpa [ofBigEndian] using ih
    · simp [zero]

theorem length_significant_le (n : Nat) : ((bigEndian n 8).dropWhile (· == 0)).length ≤ 8 := by
  have := (dropWhile_sublist (· == (0 : UInt8)) (l := bigEndian n 8)).length_le
  rwa [length_bigEndian] at this

theorem ofBigEndian_significant (fits : n < 2 ^ 64) : ofBigEndian ((bigEndian n 8).dropWhile (· == 0)) = n := by
  rw [ofBigEndian_dropWhile, ofBigEndian, foldl_bigEndian, Nat.zero_mul, Nat.zero_add]
  exact Nat.mod_eq_of_lt fits

theorem decode_encodeOrderPreserving (fits : n < 2 ^ 64) (rest : List UInt8) :
    decodeOrderPreserving (encodeOrderPreserving n ++ rest) = some (n, rest) := by
  have short := length_significant_le n
  have size := toNat_ofNat (n := ((bigEndian n 8).dropWhile (· == 0)).length) (by omega)
  simp only [encodeOrderPreserving, cons_append, decodeOrderPreserving, size]
  rw [if_neg (by simp; omega), take_left, drop_left, ofBigEndian_significant fits]

theorem encodeOrderPreserving_inj {r s : List UInt8} (fitsA : a < 2 ^ 64) (fitsB : b < 2 ^ 64)
    (same : encodeOrderPreserving a ++ r = encodeOrderPreserving b ++ s) : a = b ∧ r = s := by
  have decoded := congrArg decodeOrderPreserving same
  rw [decode_encodeOrderPreserving fitsA, decode_encodeOrderPreserving fitsB] at decoded
  simpa using decoded

theorem encodeOrderPreserving_injOn (fitsA : a < 2 ^ 64) (fitsB : b < 2 ^ 64)
    (same : encodeOrderPreserving a = encodeOrderPreserving b) : a = b :=
  (encodeOrderPreserving_inj fitsA fitsB (congrArg (· ++ []) same)).1

theorem encodeOrderPreserving_pair_inj {i j : Nat} (fitsA : a < 2 ^ 64) (fitsB : b < 2 ^ 64) (fitsI : i < 2 ^ 64) (fitsJ : j < 2 ^ 64)
    (same : encodeOrderPreserving a ++ encodeOrderPreserving i = encodeOrderPreserving b ++ encodeOrderPreserving j) : a = b ∧ i = j := by
  obtain ⟨first, second⟩ := encodeOrderPreserving_inj fitsA fitsB same
  exact ⟨first, encodeOrderPreserving_injOn fitsI fitsJ second⟩

theorem compare_of_lt {x y : UInt8} (less : x < y) : compare x y = .lt := by
  simp [compare, compareOfLessAndEq, less]

theorem ofBigEndian_cons (b : UInt8) (bytes : List UInt8) : ofBigEndian (b :: bytes) = b.toNat * 256 ^ bytes.length + ofBigEndian bytes := by
  have general : ∀ start, bytes.foldl (fun n c => n * 256 + c.toNat) start = start * 256 ^ bytes.length + ofBigEndian bytes := by
    unfold ofBigEndian
    induction bytes with
    | nil => simp
    | cons c bytes ih =>
      intro start
      rw [foldl_cons, foldl_cons, ih, ih (0 * 256 + c.toNat), length_cons]
      ring
  rw [ofBigEndian, foldl_cons, general]
  simp

theorem ofBigEndian_lt : ofBigEndian bytes < 256 ^ bytes.length := by
  induction bytes with
  | nil => simp [ofBigEndian]
  | cons b bytes ih =>
    rw [ofBigEndian_cons, length_cons, pow_succ]
    have small := b.toNat_lt
    nlinarith

theorem compare_ofBigEndian {xs ys : List UInt8} (sameLength : xs.length = ys.length)
    (less : ofBigEndian xs < ofBigEndian ys) (r s : List UInt8) : compare (xs ++ r) (ys ++ s) = .lt := by
  induction xs generalizing ys with
  | nil =>
    cases ys with
    | nil => simp at less
    | cons y ys => simp at sameLength
  | cons x xs ih =>
    cases ys with
    | nil => simp at sameLength
    | cons y ys =>
      have tails : xs.length = ys.length := by simpa using sameLength
      rw [ofBigEndian_cons, ofBigEndian_cons, tails] at less
      have low := ofBigEndian_lt xs
      rw [tails] at low
      rw [cons_append, cons_append, compare_cons_cons]
      rcases Nat.lt_trichotomy x.toNat y.toNat with lower | same | higher
      · simp [compare_of_lt (UInt8.lt_iff_toNat_lt.mpr lower)]
      · obtain rfl := UInt8.toNat_inj.mp same
        rw [ih tails (by omega)]
        simp
      · have above : y.toNat + 1 ≤ x.toNat := higher
        have := Nat.mul_le_mul_right (256 ^ ys.length) above
        have := ofBigEndian_lt ys
        nlinarith

theorem length_significant_mono (less : a < b) (fits : b < 2 ^ 64) :
    ((bigEndian a 8).dropWhile (· == 0)).length ≤ ((bigEndian b 8).dropWhile (· == 0)).length := by
  have valueA := ofBigEndian_significant (n := a) (by omega)
  have valueB := ofBigEndian_significant fits
  have upper := ofBigEndian_lt ((bigEndian b 8).dropWhile (· == 0))
  cases digits : (bigEndian a 8).dropWhile (· == 0) with
  | nil => simp
  | cons c rest =>
    have leading : c ≠ 0 := by
      have head := head_dropWhile_not (l := bigEndian a 8) (· == (0 : UInt8)) (by rw [digits]; simp)
      simpa [digits] using head
    rw [digits, ofBigEndian_cons] at valueA
    have positive : 1 ≤ c.toNat := by
      by_contra zero
      apply leading
      apply UInt8.toNat_inj.mp
      simpa using zero
    by_contra short
    have few : ((bigEndian b 8).dropWhile (· == 0)).length ≤ rest.length := by
      simpa using Nat.lt_of_not_le short
    have := Nat.pow_le_pow_right (show 0 < 256 by decide) few
    have := Nat.mul_le_mul_right (256 ^ rest.length) positive
    omega

theorem compare_encodeOrderPreserving (less : a < b) (fits : b < 2 ^ 64) (r s : List UInt8) :
    compare (encodeOrderPreserving a ++ r) (encodeOrderPreserving b ++ s) = .lt := by
  have lengths := length_significant_mono less fits
  have short := length_significant_le b
  simp only [encodeOrderPreserving, cons_append, compare_cons_cons]
  rcases Nat.lt_or_eq_of_le lengths with fewer | same
  · have lower : UInt8.ofNat ((bigEndian a 8).dropWhile (· == 0)).length <
        UInt8.ofNat ((bigEndian b 8).dropWhile (· == 0)).length := by
      rw [UInt8.lt_iff_toNat_lt, toNat_ofNat (by omega), toNat_ofNat (by omega)]
      exact fewer
    simp [compare_of_lt lower]
  · have lower : ofBigEndian ((bigEndian a 8).dropWhile (· == 0)) < ofBigEndian ((bigEndian b 8).dropWhile (· == 0)) := by
      rw [ofBigEndian_significant (n := a) (by omega), ofBigEndian_significant fits]
      exact less
    rw [same, compare_ofBigEndian same lower]
    simp

end Fabric.Lib.Varint
