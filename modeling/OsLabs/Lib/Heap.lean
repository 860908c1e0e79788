import Mathlib.Data.Finmap
import Mathlib.Tactic

/-!
# Heaps

A heap is a finite map from the addresses in use to the objects there.  Reading, writing or
freeing through a pointer fails unless its address is in use, so a run that does not fail never
follows a null or dangling pointer.
-/

namespace OsLabs.Lib

/-- A pointer, `none` for `NULL`. -/
abbrev Ptr := Option ℕ

abbrev Heap (β : Type*) := Finmap fun _ : ℕ => β

/-- The choice of `malloc`: some address that is not in use. -/
structure Allocator (β : Type*) where
  pick : Heap β → ℕ
  pick_notMem : ∀ h, pick h ∉ h

/-- The allocator that takes the address above all in use. -/
def Allocator.above (β : Type*) : Allocator β where
  pick h := h.keys.sup id + 1
  pick_notMem h hmem := by
    have hle : h.keys.sup id + 1 ≤ h.keys.sup id :=
      Finset.le_sup (f := id) (Finmap.mem_keys.mpr hmem)
    omega

namespace Heap

variable {β : Type*}

def load (h : Heap β) (p : Ptr) : Option β := p.bind fun a => h.lookup a

def store (h : Heap β) (p : Ptr) (x : β) : Option (Heap β) :=
  p.bind fun a => (h.lookup a).map fun _ => h.insert a x

def free (h : Heap β) : Ptr → Option (Heap β)
  | none => some h
  | some a => (h.lookup a).map fun _ => h.erase a

/-- A new object and the heap with it; its fields hold `x`. -/
def malloc (alloc : Allocator β) (h : Heap β) (x : β) : Ptr × Heap β :=
  (some (alloc.pick h), h.insert (alloc.pick h) x)

variable {h : Heap β} {a : ℕ} {x : β}

@[simp] theorem load_some (h : Heap β) (a : ℕ) : load h (some a) = h.lookup a := rfl

theorem store_some (ha : h.lookup a = some x) (y : β) :
    store h (some a) y = some (h.insert a y) := by
  rw [store, Option.bind_some, ha, Option.map_some]

theorem free_some (ha : h.lookup a = some x) : free h (some a) = some (h.erase a) := by
  rw [free, ha, Option.map_some]

/-- A new object does not disturb the others. -/
theorem lookup_insert_of_notMem {b : ℕ} (ha : h.lookup a = some x) (hb : b ∉ h) (y : β) :
    (h.insert b y).lookup a = some x := by
  rw [Finmap.lookup_insert_of_ne, ha]
  rintro rfl
  exact hb (Finmap.mem_of_lookup_eq_some ha)

theorem erase_insert_of_ne {b : ℕ} (hne : a ≠ b) (h : Heap β) (x : β) :
    (h.insert a x).erase b = (h.erase b).insert a x := by
  refine Finmap.ext_lookup fun c => ?_
  by_cases hcb : c = b
  · subst hcb
    rw [Finmap.lookup_erase, Finmap.lookup_insert_of_ne _ hne.symm, Finmap.lookup_erase]
  · rw [Finmap.lookup_erase_ne hcb]
    by_cases hca : c = a
    · subst hca
      rw [Finmap.lookup_insert, Finmap.lookup_insert]
    · rw [Finmap.lookup_insert_of_ne _ hca, Finmap.lookup_insert_of_ne _ hca,
        Finmap.lookup_erase_ne hcb]

end Heap

end OsLabs.Lib
