import Pratt.Proofs.Grammar
import Pratt.Proofs.Rules

/-!
# Pratt — strata and levels

The parser knows no strata. It reads an expression with a bound and compares the
bound with the level of the token ahead. The two numbers of a stratum say what
that comes to:

* below its `floor`, a bound keeps none of the operators of the stratum out;
* up to its `ceiling`, the level of a token is too low for the token to go on
  with an expression of the stratum.

`Stratum.ofBound` is the stratum of the expressions that are read with a bound.
For the operators of one stratum all this fits together: see
`Stratum.of_mem_operators` and `Kind.exists_mem_operators`.
-/

namespace Pratt

namespace Stratum

/-- The bounds below this one let an expression of the stratum be read as a whole. -/
def floor : Stratum → Int
  | .equality => 2
  | .comparison => 3
  | .sum => 4
  | .product => 5
  | .unary | .call | .atom => 7

/-- The tokens up to this level do not go on with an expression of the stratum. -/
def ceiling : Stratum → Int
  | .equality => 2
  | .comparison => 3
  | .sum => 4
  | .product => 5
  | .unary => 6
  | .call | .atom => 7

/-- The stratum of the expressions that are read with a bound. -/
def ofBound (bound : Int) : Stratum :=
  if bound ≤ 1 then .equality
  else if bound = 2 then .comparison
  else if bound = 3 then .sum
  else if bound = 4 then .product
  else .unary

/-- How many strata are looser. -/
def rank : Stratum → Nat
  | .equality => 0
  | .comparison => 1
  | .sum => 2
  | .product => 3
  | .unary => 4
  | .call => 5
  | .atom => 6

variable {c d : Stratum}

/-- The next stratum is tighter by one. -/
theorem rank_of_next? (h : c.next? = some d) : d.rank = c.rank + 1 := by
  cases c <;> cases h <;> rfl

/-- No two strata are of the same rank. -/
theorem rank_injective (h : c.rank = d.rank) : c = d := by
  cases c <;> cases d <;> first | rfl | exact absurd h (by decide)

/-- A stratum that is looser than another one has a next one. -/
theorem exists_next?_of_rank_lt (h : c.rank < d.rank) : ∃ c', c.next? = some c' := by
  cases c with
  | atom => cases d <;> exact absurd h (by decide)
  | _ => exact ⟨_, rfl⟩

/-- What passes from each stratum to the next looser one passes to all looser ones. -/
theorem loosen {P : Stratum → Prop} (step : ∀ {c d}, c.next? = some d → P d → P c)
    (hrank : c.rank ≤ d.rank) (h : P d) : P c := by
  -- on how far apart the two strata are
  obtain ⟨k, hk⟩ := Nat.exists_eq_add_of_le hrank
  induction k generalizing c with
  | zero => exact rank_injective hk.symm ▸ h
  | succ k ih =>
    obtain ⟨c', hnext⟩ := exists_next?_of_rank_lt (c := c) (d := d) (by omega)
    have hrank' := rank_of_next? hnext
    exact step hnext (ih (by omega) (by omega))

/-- A bound that lets a looser expression be read as a whole lets a tighter one. -/
theorem floor_mono (h : c.rank ≤ d.rank) : c.floor ≤ d.floor := by
  cases c <;> cases d <;> first | exact absurd h (by decide) | decide

/-- What does not go on with a looser expression does not go on with a tighter one. -/
theorem ceiling_mono (h : c.rank ≤ d.rank) : c.ceiling ≤ d.ceiling := by
  cases c <;> cases d <;> first | exact absurd h (by decide) | decide

/-- The lowest bound lets every expression be read as a whole. -/
theorem one_lt_floor (c : Stratum) : 1 < c.floor := by
  cases c <;> decide

/-- Of an operator of a stratum, the level is both numbers of the stratum, and a right operand read
with it as the bound is of the next stratum. -/
theorem of_mem_operators {k : Kind} (hk : k ∈ c.operators) (hd : c.next? = some d) :
    k ∈ Kind.infixOperators ∧ k.level = c.floor ∧ c.ceiling = c.floor ∧ c.floor < d.floor ∧
      ofBound k.level = d := by
  cases c <;> cases hd <;>
    simp only [operators, List.mem_cons, List.not_mem_nil, or_false] at hk <;>
    rcases hk with rfl | rfl <;> decide

/-- Whatever the bound is, a prefix expression is tight enough for it. -/
theorem rank_ofBound_le_unary (bound : Int) : (ofBound bound).rank ≤ unary.rank := by
  unfold ofBound
  repeat' split
  all_goals decide

/-- An expression of a stratum is tight enough for the bounds below the floor of the stratum. -/
theorem rank_ofBound_le {bound : Int} (h : bound < c.floor) : (ofBound bound).rank ≤ c.rank := by
  -- each bound against each stratum: below the floor, or ruled out
  unfold ofBound
  repeat' split
  all_goals cases c <;> first | decide | (simp only [floor] at h; omega)

/-- Only an expression of the stratum of an operator, or of a tighter one, can have the operator
behind it. -/
theorem rank_le_of_mem_operators {k : Kind} (hk : k ∈ c.operators) (h : c.floor ≤ d.ceiling) :
    c.rank ≤ d.rank := by
  cases c <;> cases d <;>
    first | exact absurd hk List.not_mem_nil | decide | exact absurd h (by decide)

/-- What a call may go on with is a call or an atom. -/
theorem call_rank_le (h : 7 ≤ c.ceiling) : call.rank ≤ c.rank := by
  cases c <;> first | decide | exact absurd h (by decide)

end Stratum

namespace Kind

theorem level_le_seven (k : Kind) : k.level ≤ 7 :=
  k.precedence.level_le_seven

/-- Each operator between operands is one of some stratum. -/
theorem exists_mem_operators {k : Kind} (hk : k ∈ infixOperators) :
    ∃ c d : Stratum, k ∈ c.operators ∧ c.next? = some d := by
  simp only [infixOperators, List.mem_cons, List.not_mem_nil, or_false] at hk
  rcases hk with rfl | rfl | rfl | rfl | rfl | rfl | rfl | rfl
  · exact ⟨.equality, _, by decide, rfl⟩
  · exact ⟨.equality, _, by decide, rfl⟩
  · exact ⟨.comparison, _, by decide, rfl⟩
  · exact ⟨.comparison, _, by decide, rfl⟩
  · exact ⟨.sum, _, by decide, rfl⟩
  · exact ⟨.sum, _, by decide, rfl⟩
  · exact ⟨.product, _, by decide, rfl⟩
  · exact ⟨.product, _, by decide, rfl⟩

/-- A kind that binds no operand has the lowest level. -/
theorem level_of_notMem_binding {k : Kind} (h : k ∉ binding) : k.level = 1 := by
  cases k <;> first | rfl | exact absurd (by decide) h

/-- A token above the bound goes on with an expression. -/
theorem not_done {k : Kind} {bound : Int} (hone : 1 < k.level) (hbound : bound < k.level) :
    ¬(k ∉ binding ∨ k.level ≤ bound) := by
  rintro (hk | hk)
  · have := level_of_notMem_binding hk
    omega
  · omega

end Kind

/-- An expression of a stratum is one of every looser stratum. -/
theorem Derives.loosen {c d : Stratum} {e : Ending} {ts : List Token} {n : Node}
    (h : Derives (.expression d e) ts n) (hrank : c.rank ≤ d.rank) :
    Derives (.expression c e) ts n :=
  Stratum.loosen (P := fun c => Derives (.expression c e) ts n) .loosened hrank h

end Pratt
