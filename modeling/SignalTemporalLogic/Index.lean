/-!
Sample indices are 64-bit words. They are kept as natural numbers, and the two operations that can
leave the range say what happens there: sums stop at the last index, shifts fail.
-/

namespace SignalTemporalLogic.Index

/-- The last index, `2 ^ 64 - 1`. -/
def last : Nat := 18446744073709551615

/-- The sum of two indices, stopped at the last index. -/
def saturatingAdd (a b : Nat) : Nat := min (a + b) last

/-- The index `offset` steps away, if there is one. -/
def shift? (index : Nat) (offset : Int) : Option Nat :=
  let target := index + offset
  if 0 ≤ target ∧ target ≤ last then some target.toNat else none

theorem saturatingAdd_mono {a b c d : Nat} (h : a ≤ c) (k : b ≤ d) :
    saturatingAdd a b ≤ saturatingAdd c d := by
  simp only [saturatingAdd]; omega

section Ranges

variable {m : Type → Type} [Monad m] {β : Type}

/-- Runs `visit` on `count` consecutive indices from `start` on and collects the results. The
indices are visited one at a time, so a range that fails early may be of any length. -/
def mapRangeM (visit : Nat → m β) (start : Nat) : Nat → m (List β)
  | 0 => pure []
  | count + 1 => do
    let first ← visit start
    let others ← mapRangeM visit (start + 1) count
    pure (first :: others)

end Ranges

end SignalTemporalLogic.Index
