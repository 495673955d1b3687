import Mathlib.Data.Nat.Digits.Lemmas
import Mathlib.Data.Nat.Log

/-!
# The last places of a number

The digits of a number at its last `n` places, the last one first. Places in front of the number
have the digit 0; the number is what its places say when none of its digits is left out.
-/

namespace Lethe

/-- The digits at the last `n` places of `value`, the last one first. -/
def places (base : Nat) : Nat → Nat → List Nat
  | 0, _ => []
  | n + 1, value => value % base :: places base n (value / base)

variable {base : Nat}

@[simp] theorem length_places (n value : Nat) : (places base n value).length = n := by
  induction n generalizing value with
  | zero => rfl
  | succ n ih => rw [places, List.length_cons, ih]

theorem lt_of_mem_places (hbase : 0 < base) {n value d : Nat} (h : d ∈ places base n value) :
    d < base := by
  induction n generalizing value with
  | zero => exact absurd h List.not_mem_nil
  | succ n ih =>
    obtain rfl | h := List.mem_cons.mp h
    · exact Nat.mod_lt _ hbase
    · exact ih h

/-- The number that the places have. -/
theorem ofDigits_places (n value : Nat) :
    Nat.ofDigits base (places base n value) = value % base ^ n := by
  induction n generalizing value with
  | zero => rw [pow_zero, Nat.mod_one, places, Nat.ofDigits_nil]
  | succ n ih => rw [places, Nat.ofDigits_cons, ih, pow_succ', Nat.mod_mul]

theorem take_places (k n value : Nat) :
    (places base n value).take k = places base (min k n) value := by
  induction n generalizing k value with
  | zero => rw [Nat.min_zero, places, List.take_nil]
  | succ n ih =>
    cases k with
    | zero => rw [Nat.zero_min, places, List.take_zero]
    | succ k => rw [places, List.take_succ_cons, ih, Nat.succ_min_succ, places]

theorem places_zero (n : Nat) : places base n 0 = List.replicate n 0 := by
  induction n with
  | zero => rfl
  | succ n ih => rw [places, Nat.zero_mod, Nat.zero_div, ih, List.replicate_succ]

/-- Places in front of the number. -/
theorem places_append_zeros {n value : Nat} (h : value < base ^ n) (k : Nat) :
    places base n value ++ List.replicate k 0 = places base (n + k) value := by
  induction n generalizing value with
  | zero =>
    obtain rfl : value = 0 := by simpa using h
    rw [places, List.nil_append, Nat.zero_add, places_zero]
  | succ n ih =>
    rw [pow_succ] at h
    rw [Nat.add_right_comm, places, List.cons_append, places,
      ih (Nat.div_lt_of_lt_mul (Nat.mul_comm _ _ ▸ h))]

/-- The number of digits. -/
def digitCount (base value : Nat) : Nat := Nat.log base value + 1

theorem lt_pow_digitCount (hbase : 1 < base) (value : Nat) : value < base ^ digitCount base value :=
  Nat.lt_pow_succ_log_self hbase value

theorem digitCount_div (hbase : 1 < base) {value : Nat} (h : value / base ≠ 0) :
    digitCount base value = digitCount base (value / base) + 1 := by
  have hle : base ≤ value := by
    by_contra hlt
    exact h (Nat.div_eq_of_lt (Nat.lt_of_not_le hlt))
  have hlog := Nat.log_pos hbase hle
  rw [digitCount, digitCount, Nat.log_div_base]
  omega

theorem digitCount_le {n value : Nat} (hbase : 1 < base) (hn : 0 < n) (h : value < base ^ n) :
    digitCount base value ≤ n := by
  by_cases hvalue : value = 0
  · rw [hvalue, digitCount, Nat.log_zero_right]
    exact hn
  · exact (Nat.log_lt_iff_lt_pow hbase hvalue).mpr h

end Lethe
