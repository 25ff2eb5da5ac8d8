import LetPoly.Name.Index
import LetPoly.NameSet

/-! # Fresh names

A supply hands out the numbered names from its next index on and leaves out
the reserved ones.
-/

namespace LetPoly

/-- A source of fresh names. -/
structure NameSupply where
  /-- The index of the next name to try. -/
  next : Nat
  /-- The names that are not handed out. -/
  reserved : NameSet
deriving DecidableEq

namespace NameSupply

/-- The supply that starts at the first name and leaves out `reserved`. -/
def start (reserved : NameSet) : NameSupply :=
  ⟨0, reserved⟩

instance : Inhabited NameSupply := ⟨start ∅⟩

/-- The first index from `n` on whose name is not to be avoided.  A name that
has been passed cannot come again, so the names still to be avoided get fewer
with every step. -/
def firstIndex (avoid : NameSet) (n : Nat) : Nat :=
  if Name.ofIndex n ∈ avoid then firstIndex (avoid.erase (Name.ofIndex n)) (n + 1) else n
termination_by avoid.size
decreasing_by exact NameSet.size_erase_lt (by assumption)

/-- The next name, and the supply without it. -/
def fresh (supply : NameSupply) : Name × NameSupply :=
  let n := firstIndex supply.reserved supply.next
  (Name.ofIndex n, { supply with next := n + 1 })

/-- The next `k` names, and the supply without them. -/
def freshMany (supply : NameSupply) : Nat → List Name × NameSupply
  | 0 => ([], supply)
  | k + 1 =>
      let (x, supply₁) := supply.fresh
      let (xs, supply₂) := supply₁.freshMany k
      (x :: xs, supply₂)

/-! ## The first index that is not avoided -/

/-- The search goes upwards. -/
theorem le_firstIndex (avoid : NameSet) (n : Nat) : n ≤ firstIndex avoid n := by
  fun_induction firstIndex avoid n with
  | case1 avoid n h ih => omega
  | case2 avoid n h => exact Nat.le_refl n

/-- The search stops at a name that is not avoided. -/
theorem ofIndex_firstIndex_not_mem (avoid : NameSet) (n : Nat) :
    Name.ofIndex (firstIndex avoid n) ∉ avoid := by
  fun_induction firstIndex avoid n with
  | case1 avoid n h ih =>
      intro hmem
      refine ih (NameSet.mem_erase.mpr ⟨hmem, fun heq => ?_⟩)
      have hle := le_firstIndex (avoid.erase (Name.ofIndex n)) (n + 1)
      have hidx := Name.ofIndex_injective heq
      omega
  | case2 avoid n h => exact h

/-- All names before it are avoided. -/
theorem ofIndex_mem_of_lt_firstIndex {avoid : NameSet} {n k : Nat} (hle : n ≤ k)
    (hlt : k < firstIndex avoid n) : Name.ofIndex k ∈ avoid := by
  fun_induction firstIndex avoid n with
  | case1 avoid n h ih =>
      by_cases hk : k = n
      · exact hk ▸ h
      · exact (NameSet.mem_erase.mp (ih (by omega) hlt)).1
  | case2 avoid n h => omega

end NameSupply

end LetPoly
