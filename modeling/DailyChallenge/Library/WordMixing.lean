import Mathlib

/-!
# Mixing words without losing bits

The two steps that hash finalizers are made of are bijections of the words of a width: the
multiplication by an odd word (`mul_injective_of_odd`) and the exclusive or of a word with itself,
shifted by at least half of the width (`xor_ushiftRight_injective`), which is its own inverse. A
hash that folds a step over its input tells two inputs apart that differ in one place, as long as
the step loses neither the state nor the symbol (`foldl_ne_of_ne`).
-/

set_option autoImplicit false
set_option relaxedAutoImplicit false

namespace DailyChallenge.Library

/-! ### Steps on words -/

section Words

variable {width : ℕ}

/-- An odd word can be cancelled. -/
theorem mul_injective_of_odd {multiplier : BitVec width} (hodd : Odd multiplier.toNat) :
    Function.Injective fun word : BitVec width ↦ word * multiplier := by
  intro first second h
  have hproduct : first.toNat * multiplier.toNat ≡ second.toNat * multiplier.toNat
      [MOD 2 ^ width] := by
    simpa [BitVec.toNat_mul, Nat.ModEq] using congrArg BitVec.toNat h
  have hcoprime : Nat.gcd (2 ^ width) multiplier.toNat = 1 :=
    Nat.Coprime.pow_left width (Nat.coprime_two_left.mpr hodd)
  have hsame := Nat.ModEq.cancel_right_of_coprime hcoprime hproduct
  apply BitVec.eq_of_toNat_eq
  rwa [Nat.ModEq, Nat.mod_eq_of_lt first.isLt, Nat.mod_eq_of_lt second.isLt] at hsame

/-- Shifted twice nothing is left, so the step undoes itself. -/
theorem xor_ushiftRight_involutive {shift : ℕ} (hshift : width ≤ shift + shift) :
    Function.Involutive fun word : BitVec width ↦ word ^^^ (word >>> shift) := by
  intro word
  have htwice : word >>> shift >>> shift = BitVec.ofNat width 0 := by
    rw [← BitVec.shiftRight_add]
    exact BitVec.ushiftRight_eq_zero hshift
  show (word ^^^ word >>> shift) ^^^ (word ^^^ word >>> shift) >>> shift = word
  rw [BitVec.ushiftRight_xor_distrib, htwice, BitVec.xor_zero, BitVec.xor_assoc,
    BitVec.xor_self, BitVec.xor_zero]

theorem xor_ushiftRight_injective {shift : ℕ} (hshift : width ≤ shift + shift) :
    Function.Injective fun word : BitVec width ↦ word ^^^ (word >>> shift) :=
  (xor_ushiftRight_involutive hshift).injective

end Words

/-! ### Folding a step -/

section Folds

variable {State Symbol : Type*} {step : State → Symbol → State}

/-- Steps that keep states apart keep them apart over any input. -/
theorem foldl_injective (hstate : ∀ symbol, Function.Injective fun state ↦ step state symbol)
    (input : List Symbol) : Function.Injective fun state ↦ input.foldl step state := by
  induction input with
  | nil => exact Function.injective_id
  | cons symbol rest ih => exact ih.comp (hstate symbol)

/-- Inputs that differ in one symbol end in different states. -/
theorem foldl_ne_of_ne (hstate : ∀ symbol, Function.Injective fun state ↦ step state symbol)
    (hsymbol : ∀ state, Function.Injective (step state)) (start : State)
    (before after : List Symbol) {first second : Symbol} (hne : first ≠ second) :
    (before ++ first :: after).foldl step start ≠ (before ++ second :: after).foldl step start := by
  rw [List.foldl_append, List.foldl_append, List.foldl_cons, List.foldl_cons]
  exact (foldl_injective hstate after).ne ((hsymbol _).ne hne)

end Folds

end DailyChallenge.Library
