import Mathlib.Data.Nat.Digits.Lemmas

/-!
# Digit strings packed into a machine word

A digit string in base `b`, least significant digit first, is packed into a word that holds `k`
whole digits and the residue modulo `m` of one more digit. `of_digits_mod_eq_iff` says which digit
strings collide with one of at most `k` digits.
-/

namespace Lib.Digits

/-- The first `k` digits, with zeros for missing ones. -/
def front (k : Nat) (digits : List Nat) : List Nat := (digits ++ List.replicate k 0).take k

@[simp] theorem front_length (k : Nat) (digits : List Nat) : (front k digits).length = k := by
  simp [front]

theorem front_lt {b k : Nat} (hb : 0 < b) {digits : List Nat} (h : ∀ d ∈ digits, d < b) :
    ∀ d ∈ front k digits, d < b := by
  intro d hd
  rcases List.mem_append.mp (List.mem_of_mem_take hd) with hmem | hmem
  · exact h d hmem
  · rw [(List.mem_replicate.mp hmem).2]
    exact hb

/-- Padding with zeros does not change the number. -/
theorem of_digits_front {b k : Nat} {digits : List Nat} (h : digits.length ≤ k) :
    Nat.ofDigits b (front k digits) = Nat.ofDigits b digits := by
  have hpad : front k digits = digits ++ List.replicate (k - digits.length) 0 := by
    rw [front, List.take_append, List.take_of_length_le h, List.take_replicate,
      Nat.min_eq_left (by omega)]
  rw [hpad, Nat.ofDigits_append_replicate_zero]

/-- A number is its first `k` digits and the number formed by the others. -/
theorem of_digits_split (b k : Nat) (digits : List Nat) :
    Nat.ofDigits b digits =
      Nat.ofDigits b (front k digits) + b ^ k * Nat.ofDigits b (digits.drop k) := by
  rcases Nat.le_total digits.length k with hle | hle
  · rw [of_digits_front hle, List.drop_eq_nil_of_le hle, Nat.ofDigits_nil, Nat.mul_zero,
      Nat.add_zero]
  · have hfront : front k digits = digits.take k := by
      rw [front, List.take_append_of_le_length hle]
    conv_lhs => rw [← List.take_append_drop k digits, Nat.ofDigits_append]
    rw [hfront, List.length_take, Nat.min_eq_left hle]

/-- Modulo a divisor of the base a number is its last digit. -/
theorem of_digits_dvd_iff {b m : Nat} (hm : m ∣ b) (digits : List Nat) :
    m ∣ Nat.ofDigits b digits ↔ ∀ d, digits[0]? = some d → m ∣ d := by
  cases digits with
  | nil => simp
  | cons d rest =>
      rw [Nat.ofDigits_cons]
      simpa using (Nat.dvd_add_left (Dvd.dvd.mul_right hm _)).trans Iff.rfl

/-- A packed digit string is the number of at most `k` digits exactly if both have the same first
`k` digits and the next digit vanishes modulo `m`. -/
theorem of_digits_mod_eq_iff {b k m : Nat} (hb : 1 < b) (hm : m ∣ b) {digits word : List Nat}
    (hdigits : ∀ d ∈ digits, d < b) (hword : ∀ d ∈ word, d < b) (hlen : word.length ≤ k) :
    Nat.ofDigits b digits % (b ^ k * m) = Nat.ofDigits b word ↔
      front k digits = front k word ∧ ∀ d, digits[k]? = some d → m ∣ d := by
  have hpos : 0 < b ^ k := Nat.pow_pos (by omega)
  have hlow : Nat.ofDigits b (front k digits) < b ^ k := by
    simpa using Nat.ofDigits_lt_base_pow_length hb (front_lt (k := k) (by omega) hdigits)
  have hsmall : Nat.ofDigits b (front k word) < b ^ k := by
    simpa using Nat.ofDigits_lt_base_pow_length hb (front_lt (k := k) (by omega) hword)
  have hnext : digits[k]? = (digits.drop k)[0]? := by simp
  rw [of_digits_split b k digits, Nat.mod_mul, ← of_digits_front hlen, hnext,
    ← of_digits_dvd_iff hm, Nat.add_mul_mod_self_left, Nat.mod_eq_of_lt hlow,
    Nat.add_mul_div_left _ _ hpos, Nat.div_eq_of_lt hlow, Nat.zero_add]
  constructor
  · intro h
    have hhigh : Nat.ofDigits b (digits.drop k) % m = 0 := by
      by_contra hne
      have := Nat.le_mul_of_pos_right (b ^ k) (Nat.pos_of_ne_zero hne)
      omega
    rw [hhigh, Nat.mul_zero, Nat.add_zero] at h
    exact ⟨Nat.ofDigits_inj_of_len_eq hb (by simp) (front_lt (by omega) hdigits)
      (front_lt (by omega) hword) h, Nat.dvd_of_mod_eq_zero hhigh⟩
  · rintro ⟨hfront, hdvd⟩
    rw [hfront, Nat.mod_eq_zero_of_dvd hdvd, Nat.mul_zero, Nat.add_zero]

end Lib.Digits
