import OsLabs.Lib.Comparator
import OsLabs.SchedSim.Priority

/-!
# The two priority comparators

`my_comparer` of the function pointer lab and `my_comparer` of the scheduling simulator order
processes by descending priority and then by ascending arrival, each by subtracting `int` fields.
The order is the intended one as long as no two processes are further apart than an `int`.
-/

namespace OsLabs.FuncPtr

open OsLabs.Lib OsLabs.SchedSim

structure Process where
  pid : ℤ
  arrivalTime : ℤ
  priority : ℤ
  deriving DecidableEq, Repr

def myComparer (p1 p2 : Process) : ℤ :=
  if p2.priority ≠ p1.priority then wrapInt (p2.priority - p1.priority)
  else wrapInt (p1.arrivalTime - p2.arrivalTime)

theorem myComparer_eq : myComparer = subtractKeys Process.priority Process.arrivalTime := by
  funext p1 p2
  rw [myComparer, subtractKeys]
  simp only [ne_comm]

theorem schedSim_myComparer_eq :
    SchedSim.myComparer = subtractKeys ProcessType.pri ProcessType.art := rfl

/-- **The comparators.**  Each of the two has the signs of the intended order on a set of processes,
and is consistent there, if and only if no two of them with different priorities have priorities,
and no two with the same priority have arrivals, more than `INT_MAX` apart. -/
theorem myComparer_ordersOn_iff (S : Set ProcessType) (T : Set Process)
    (hS : ∀ p ∈ S, InInt p.pri ∧ InInt p.art)
    (hT : ∀ p ∈ T, InInt p.priority ∧ InInt p.arrivalTime) :
    (OrdersOn SchedSim.myComparer (keyOrder ProcessType.pri ProcessType.art) S ∧
        ConsistentOn SchedSim.myComparer S ↔
      ∀ p ∈ S, ∀ q ∈ S, KeysWithin ProcessType.pri ProcessType.art p q) ∧
    (OrdersOn myComparer (keyOrder Process.priority Process.arrivalTime) T ∧
        ConsistentOn myComparer T ↔
      ∀ p ∈ T, ∀ q ∈ T, KeysWithin Process.priority Process.arrivalTime p q) := by
  rw [schedSim_myComparer_eq, myComparer_eq]
  exact ⟨subtractKeys_ordersOn_iff hS, subtractKeys_ordersOn_iff hT⟩

theorem myComparer_ordersOn_sample :
    let S : Set ProcessType := {⟨1, 5, 0, 0, 0, 2⟩, ⟨2, 5, 3, 0, 0, -1⟩}
    let T : Set Process := {⟨1, 0, 2⟩, ⟨2, 3, 2⟩}
    (OrdersOn SchedSim.myComparer (keyOrder ProcessType.pri ProcessType.art) S ∧
        ConsistentOn SchedSim.myComparer S ↔
      ∀ p ∈ S, ∀ q ∈ S, KeysWithin ProcessType.pri ProcessType.art p q) ∧
    (OrdersOn myComparer (keyOrder Process.priority Process.arrivalTime) T ∧
        ConsistentOn myComparer T ↔
      ∀ p ∈ T, ∀ q ∈ T, KeysWithin Process.priority Process.arrivalTime p q) := by
  refine myComparer_ordersOn_iff _ _ ?_ ?_
  · rintro p (rfl | rfl)
    · decide
    · decide
  · rintro p (rfl | rfl)
    · decide
    · decide

/-- With priorities 1500000000, 0 and -1500000000 each process is put before the next one, and the
last before the first. -/
theorem farPriorities_not_consistent :
    ¬ ConsistentOn SchedSim.myComparer
        {⟨1, 5, 0, 0, 0, 1500000000⟩, ⟨2, 5, 0, 0, 0, 0⟩, ⟨3, 5, 0, 0, 0, -1500000000⟩} ∧
      ¬ ConsistentOn myComparer {⟨1, 0, 1500000000⟩, ⟨2, 0, 0⟩, ⟨3, 0, -1500000000⟩} := by
  constructor
  · exact not_consistentOn_of_cycle (Or.inl rfl) (Or.inr (Or.inl rfl)) (Or.inr (Or.inr rfl))
      (by decide) (by decide) (by decide)
  · exact not_consistentOn_of_cycle (Or.inl rfl) (Or.inr (Or.inl rfl)) (Or.inr (Or.inr rfl))
      (by decide) (by decide) (by decide)

end OsLabs.FuncPtr
