import Mathlib.NumberTheory.PrimeCounting

/-!
# The sieve of Eratosthenes by stages

A stage of the sieve keeps the first number that it is given and passes those
on that it does not divide.  Behind a generator of 2, 3, 4, …, stage `k` keeps
the prime number `k`, counted from 0.
-/

namespace OsLabs.Eratosthenes

open Nat (nth)

/-- What a stage passes on. -/
def sifted : List ℕ → List ℕ
  | [] => []
  | p :: rest => rest.filter fun i => i % p ≠ 0

/-- The numbers below `2 + n` that the first `k` primes do not divide. -/
noncomputable def survivors (k n : ℕ) : List ℕ :=
  open Classical in (List.range' 2 n).filter fun i => ∀ j < k, ¬ nth Nat.Prime j ∣ i

variable {k n p : ℕ} {l l' : List ℕ}

theorem sifted_mono (h : l <+: l') : sifted l <+: sifted l' := by
  cases l with
  | nil => exact List.nil_prefix
  | cons p rest =>
    obtain ⟨more, rfl⟩ := h
    rw [List.cons_append, sifted, sifted, List.filter_append]
    exact List.prefix_append _ _

/-- One more number for a stage that has its prime. -/
theorem sifted_concat (p : ℕ) (rest : List ℕ) (i : ℕ) : sifted (p :: rest ++ [i]) =
    sifted (p :: rest) ++ if i % p ≠ 0 then [i] else [] := by
  rw [List.cons_append, sifted, sifted, List.filter_append]
  congr 1
  by_cases hi : i % p = 0
  · simp [hi]
  · simp [hi]

theorem mem_survivors {i : ℕ} : i ∈ survivors k n ↔
    (2 ≤ i ∧ i < 2 + n) ∧ ∀ j < k, ¬ nth Nat.Prime j ∣ i := by
  classical
  rw [survivors, List.mem_filter, decide_eq_true_eq, List.mem_range'_1]

theorem survivors_sorted (k n : ℕ) : (survivors k n).Pairwise (· < ·) := by
  classical
  exact (List.pairwise_lt_range' 1).filter _

/-- The prime numbers divide what they divide. -/
theorem nth_mem_survivors (hlt : nth Nat.Prime k < 2 + n) : nth Nat.Prime k ∈ survivors k n := by
  have hprime := Nat.prime_nth_prime k
  refine mem_survivors.mpr ⟨⟨hprime.two_le, hlt⟩, fun j hj hdvd => ?_⟩
  have hsame := (Nat.prime_dvd_prime_iff_eq (Nat.prime_nth_prime j) hprime).mp hdvd
  exact hj.ne (Nat.nth_injective Nat.infinite_setOfPred_prime hsame)

/-- No survivor is smaller than the next prime. -/
theorem nth_le_of_mem {i : ℕ} (hi : i ∈ survivors k n) : nth Nat.Prime k ≤ i := by
  obtain ⟨⟨htwo, -⟩, hnot⟩ := mem_survivors.mp hi
  have hprime : i.minFac.Prime := Nat.minFac_prime (by omega)
  have hcount : nth Nat.Prime (Nat.count Nat.Prime i.minFac) = i.minFac := Nat.nth_count hprime
  have hle : k ≤ Nat.count Nat.Prime i.minFac := by
    by_contra hlt
    refine hnot _ (Nat.lt_of_not_le hlt) ?_
    rw [hcount]
    exact i.minFac_dvd
  calc nth Nat.Prime k ≤ nth Nat.Prime (Nat.count Nat.Prime i.minFac) :=
        Nat.nth_monotone Nat.infinite_setOfPred_prime hle
    _ = i.minFac := hcount
    _ ≤ i := Nat.minFac_le (by omega)

/-- The first survivor is the next prime. -/
theorem head_survivors {rest : List ℕ} (h : survivors k n = p :: rest) : p = nth Nat.Prime k := by
  have hp : p ∈ survivors k n := by
    rw [h]
    exact List.mem_cons_self
  have hle := nth_le_of_mem hp
  have hmem := nth_mem_survivors (lt_of_le_of_lt hle (mem_survivors.mp hp).1.2)
  have hsorted := survivors_sorted k n
  rw [h] at hmem hsorted
  rcases List.mem_cons.mp hmem with hsame | hrest
  · exact hsame.symm
  · exact absurd ((List.pairwise_cons.mp hsorted).1 _ hrest) (Nat.not_lt.mpr hle)

/-- A stage passes on the survivors of its prime. -/
theorem sifted_survivors (k n : ℕ) : sifted (survivors k n) = survivors (k + 1) n := by
  classical
  have hfilter : survivors (k + 1) n =
      (survivors k n).filter fun i => ¬ nth Nat.Prime k ∣ i := by
    rw [survivors, survivors, List.filter_filter]
    refine List.filter_congr fun i _ => ?_
    rw [← Bool.decide_and, decide_eq_decide]
    constructor
    · intro h
      exact ⟨h k (Nat.lt_succ_self k), fun j hj => h j (Nat.lt_succ_of_lt hj)⟩
    · intro h j hj
      rcases Nat.lt_succ_iff_lt_or_eq.mp hj with hlt | rfl
      · exact h.2 j hlt
      · exact h.1
  rw [hfilter]
  cases h : survivors k n with
  | nil => rfl
  | cons p rest =>
    have hp := head_survivors h
    rw [sifted, List.filter_cons, ← hp, if_neg (by simp)]
    refine List.filter_congr fun i _ => ?_
    rw [decide_eq_decide, Nat.dvd_iff_mod_eq_zero]

/-- The numbers that reach stage `k`. -/
theorem iterate_sifted (k n : ℕ) : sifted^[k] (List.range' 2 n) = survivors k n := by
  induction k with
  | zero =>
    rw [Function.iterate_zero_apply, survivors, List.filter_eq_self.mpr]
    intro i _
    simp
  | succ k ih => rw [Function.iterate_succ_apply', ih, sifted_survivors]

/-- What a stage keeps, when it has been given part of the numbers. -/
theorem kept_prime {rest : List ℕ} (h : p :: rest <+: sifted^[k] (List.range' 2 n)) :
    p = nth Nat.Prime k := by
  rw [iterate_sifted] at h
  obtain ⟨more, hmore⟩ := h
  exact head_survivors hmore.symm

end OsLabs.Eratosthenes
