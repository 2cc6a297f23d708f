import StudyDoc.Lib.Outcome
import Mathlib.NumberTheory.Bertrand

/-!
# `散列.md`: the size of a hash table

`NextPrime` tries the odd numbers from `N` on, each by the odd divisors up to its root:

    3 ≤ N  →  2 * N < 46339 * 46339  →  the least prime from N on, at most 2 * N  (nextPrime_least)

`46339` is the greatest odd `int` whose square is an `int`.
-/

namespace StudyDoc.HashQuad

/-! ## Algorithm -/

def intMax : Nat := 2147483647

/-- `for( i = 3; i * i <= N; i += 2 ) if( N % i == 0 ) goto ContOuter;` -/
def contOuter (n : Nat) : Nat → Nat → Outcome Bool
  | 0, _ => .running
  | fuel + 1, i =>
    if intMax < i * i then .undefined
    else if i * i ≤ n then
      if n % i = 0 then .returns true else contOuter n fuel (i + 2)
    else .returns false

/-- `for( ; ; N += 2 )` -/
def nextPrimeLoop : Nat → Nat → Outcome Nat
  | 0, _ => .running
  | fuel + 1, n => do
    if ← contOuter n n 3 then
      if intMax < n + 2 then .undefined else nextPrimeLoop fuel (n + 2)
    else return n

def nextPrime (n : Nat) : Outcome Nat := nextPrimeLoop (n + 1) (if n % 2 = 0 then n + 1 else n)

/-! ## Trial division -/

theorem le_minFac_step {n i : Nat} (hn : n % 2 = 1) (hi : i % 2 = 1) (hle : i ≤ n.minFac)
    (hne : n % i ≠ 0) : i + 2 ≤ n.minFac := by
  have h1 : n.minFac ≠ i := by
    rintro rfl
    exact hne (Nat.mod_eq_zero_of_dvd n.minFac_dvd)
  have h2 : n.minFac ≠ i + 1 := by
    intro heq
    have hdvd : 2 ∣ n := (Nat.dvd_of_mod_eq_zero (by omega : (i + 1) % 2 = 0)).trans
      (heq ▸ n.minFac_dvd)
    omega
  omega

theorem three_le_minFac {n : Nat} (hn : n % 2 = 1) (h3 : 3 ≤ n) : 3 ≤ n.minFac := by
  have h2 := (Nat.minFac_prime (by omega : n ≠ 1)).two_le
  have hne : n.minFac ≠ 2 := by
    intro heq
    have hdvd : 2 ∣ n := heq ▸ n.minFac_dvd
    omega
  omega

/-- No `int` that the loop looks at divides `n` as long as it stays below `minFac n`. -/
theorem contOuter_returns {n fuel i : Nat} {b : Bool} (hn : n % 2 = 1) (h3 : 3 ≤ n)
    (hi : i % 2 = 1) (hi3 : 3 ≤ i) (hle : i ≤ n.minFac) (h : contOuter n fuel i = .returns b) :
    (b = true → ¬ n.Prime) ∧ (b = false → n.Prime ∧ n < intMax) := by
  induction fuel generalizing i with
  | zero => cases h
  | succ fuel ih =>
    unfold contOuter at h
    split at h
    · cases h
    · rename_i hmax
      split at h
      · rename_i hsq
        split at h
        · rename_i hmod
          cases h
          refine ⟨fun _ hp => ?_, nofun⟩
          rcases hp.eq_one_or_self_of_dvd i (Nat.dvd_of_mod_eq_zero hmod) with h1 | h1
          · omega
          · subst h1
            have := Nat.mul_le_mul_right i hi3
            omega
        · rename_i hmod
          exact ih (by omega) (by omega) (le_minFac_step hn hi hle hmod) h
      · rename_i hsq
        cases h
        refine ⟨nofun, fun _ => ⟨?_, by omega⟩⟩
        by_contra hp
        have hmin := Nat.minFac_sq_le_self (by omega) hp
        have hi := Nat.mul_le_mul hle hle
        rw [Nat.pow_two] at hmin
        omega

/-- `46339 * 46339` is the largest square of an odd `int` that is an `int`. -/
theorem contOuter_total {n fuel i : Nat} (hn : n < 46339 * 46339) (hi : i % 2 = 1)
    (hi2 : i ≤ 46339) (hin : i < n + 3) (hf : n + 3 ≤ fuel + i) :
    ∃ b, contOuter n fuel i = .returns b := by
  induction fuel generalizing i with
  | zero => omega
  | succ fuel ih =>
    have hsq : i * i ≤ 46339 * 46339 := Nat.mul_le_mul hi2 hi2
    unfold contOuter intMax
    rw [if_neg (by omega)]
    split
    · rename_i hle
      split
      · exact ⟨true, rfl⟩
      · have hlt : i < 46339 := by
          by_contra hge
          have := Nat.mul_le_mul (Nat.le_of_not_lt hge) (Nat.le_of_not_lt hge)
          omega
        have hin' : i ≤ n := (Nat.le_mul_self i).trans hle
        exact ih (by omega) (by omega) (by omega) (by omega)
    · exact ⟨false, rfl⟩

theorem nextPrimeLoop_returns {fuel n p : Nat} (hn : n % 2 = 1) (h3 : 3 ≤ n)
    (h : nextPrimeLoop fuel n = .returns p) :
    p.Prime ∧ p % 2 = 1 ∧ p < intMax ∧ n ≤ p ∧ ∀ q, q.Prime → n ≤ q → p ≤ q := by
  induction fuel generalizing n with
  | zero => cases h
  | succ fuel ih =>
    obtain ⟨b, hb, h⟩ := Outcome.bind_eq_returns.mp h
    obtain ⟨htrue, hfalse⟩ := contOuter_returns hn h3 (by decide) (by decide)
      (three_le_minFac hn h3) hb
    cases b with
    | false =>
      cases h
      exact ⟨(hfalse rfl).1, hn, (hfalse rfl).2, Nat.le_refl _, fun q _ hq => hq⟩
    | true =>
      rw [if_pos rfl] at h
      split at h
      · cases h
      · obtain ⟨hp, hodd, hlt, hle, hleast⟩ := ih (by omega) (by omega) h
        refine ⟨hp, hodd, hlt, by omega, fun q hq hnq => hleast q hq ?_⟩
        -- neither `n` nor the even `n + 1` is a prime
        have h1 : q ≠ n := fun heq => htrue rfl (heq ▸ hq)
        have h2 : q ≠ n + 1 := fun heq => by
          rcases hq.eq_two_or_odd with h2 | h2
          · omega
          · omega
        omega

theorem nextPrimeLoop_total {fuel n q : Nat} (hn : n % 2 = 1) (h3 : 3 ≤ n) (hq : q.Prime)
    (hnq : n ≤ q) (hlt : q < 46339 * 46339) (hf : q - n < fuel) :
    ∃ p, nextPrimeLoop fuel n = .returns p := by
  induction fuel generalizing n with
  | zero => omega
  | succ fuel ih =>
    obtain ⟨b, hb⟩ : ∃ b, contOuter n n 3 = .returns b :=
      contOuter_total (by omega) (by decide) (by decide) (by omega) (by omega)
    obtain ⟨htrue, -⟩ := contOuter_returns hn h3 (by decide) (by decide)
      (three_le_minFac hn h3) hb
    unfold nextPrimeLoop
    rw [hb]
    cases b with
    | false => exact ⟨n, rfl⟩
    | true =>
      have hne : q ≠ n := fun heq => htrue rfl (heq ▸ hq)
      have h2 := hq.eq_two_or_odd
      have hmax : ¬ intMax < n + 2 := by
        unfold intMax
        omega
      show ∃ p, (if intMax < n + 2 then Outcome.undefined else nextPrimeLoop fuel (n + 2)) = _
      rw [if_neg hmax]
      exact ih (by omega) (by omega) (by omega) (by omega)

theorem nextPrime_spec {n p : Nat} (h3 : 3 ≤ n) (h : nextPrime n = .returns p) :
    p.Prime ∧ p % 2 = 1 ∧ p < intMax ∧ n ≤ p ∧ ∀ q, q.Prime → n ≤ q → p ≤ q := by
  unfold nextPrime at h
  split at h
  · obtain ⟨hp, hodd, hlt, hle, hleast⟩ := nextPrimeLoop_returns (by omega) (by omega) h
    refine ⟨hp, hodd, hlt, by omega, fun q hq hnq => hleast q hq ?_⟩
    rcases hq.eq_two_or_odd with h2 | h2
    · omega
    · omega
  · exact nextPrimeLoop_returns (by omega) h3 h

theorem nextPrime_total {n : Nat} (h3 : 3 ≤ n) (hn : 2 * n < 46339 * 46339) :
    ∃ p, nextPrime n = .returns p := by
  obtain ⟨q, hq, hlt, hle⟩ := Nat.exists_prime_lt_and_le_two_mul n (by omega)
  unfold nextPrime
  split
  · exact nextPrimeLoop_total (by omega) (by omega) hq hlt (by omega) (by omega)
  · exact nextPrimeLoop_total (by omega) h3 hq (by omega) (by omega) (by omega)

/-! ## Main results -/

/-- `NextPrime` gives the least prime from `n` on, without an overflow. -/
theorem nextPrime_least {n : Nat} (h3 : 3 ≤ n) (hn : 2 * n < 46339 * 46339) :
    ∃ p, nextPrime n = .returns p ∧ p.Prime ∧ n ≤ p ∧ p ≤ 2 * n ∧
      ∀ q, q.Prime → n ≤ q → p ≤ q := by
  obtain ⟨p, hp⟩ := nextPrime_total h3 hn
  obtain ⟨hprime, -, -, hle, hleast⟩ := nextPrime_spec h3 hp
  obtain ⟨q, hq, hlt, hq2⟩ := Nat.exists_prime_lt_and_le_two_mul n (by omega)
  exact ⟨p, hp, hprime, hle, (hleast q hq (by omega)).trans hq2, hleast⟩

theorem nextPrime_least_twenty : (3 ≤ 20 ∧ 2 * 20 < 46339 * 46339) ∧
    ∃ p, nextPrime 20 = .returns p ∧ p.Prime ∧ 20 ≤ p ∧ p ≤ 2 * 20 ∧
      ∀ q, q.Prime → 20 ≤ q → p ≤ q :=
  ⟨by decide, nextPrime_least (by decide) (by decide)⟩

example : nextPrime 20 = .returns 23 := by decide

end StudyDoc.HashQuad
