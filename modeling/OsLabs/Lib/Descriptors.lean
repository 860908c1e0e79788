import Mathlib.Data.List.ReduceOption
import Mathlib.Tactic

/-!
# A table of file descriptors

What a process has open under each descriptor.  `open` uses the least descriptor that is free,
`dup2` makes a descriptor refer to what another one refers to, and `close` frees one.  The table is
known by what it answers to `lookup`, and each operation changes one answer.
-/

namespace OsLabs.Lib

variable {α : Type*}

/-- The slots of the descriptors 0, 1, and so on; those behind the list are free. -/
structure FdTable (α : Type*) where
  slots : List (Option α)
  deriving DecidableEq, Repr

namespace FdTable

def lookup (fds : FdTable α) (fd : ℕ) : Option α := fds.slots[fd]?.join

/-- The table with one slot changed. -/
def assign (fds : FdTable α) (fd : ℕ) (slot : Option α) : FdTable α where
  slots :=
    if fd < fds.slots.length then fds.slots.set fd slot
    else fds.slots ++ List.replicate (fd - fds.slots.length) none ++ [slot]

def lowestFree (fds : FdTable α) : ℕ := fds.slots.findIdx Option.isNone

/-- `open`, which returns the descriptor. -/
def openFile (fds : FdTable α) (file : α) : ℕ × FdTable α :=
  (fds.lowestFree, fds.assign fds.lowestFree (some file))

/-- `dup2(oldfd, newfd)`, which does nothing if `oldfd` is not open. -/
def dup2 (fds : FdTable α) (oldfd newfd : ℕ) : FdTable α :=
  match fds.lookup oldfd with
  | none => fds
  | some file => fds.assign newfd (some file)

def close (fds : FdTable α) (fd : ℕ) : FdTable α := fds.assign fd none

/-- The same descriptors, with other names for what they refer to. -/
def map {β : Type*} (f : α → β) (fds : FdTable α) : FdTable β := ⟨fds.slots.map (Option.map f)⟩

variable (fds : FdTable α)

@[simp] theorem lookup_assign (fd : ℕ) (slot : Option α) (fd' : ℕ) :
    (fds.assign fd slot).lookup fd' = if fd' = fd then slot else fds.lookup fd' := by
  unfold lookup assign
  dsimp only
  by_cases hlt : fd < fds.slots.length
  · rw [if_pos hlt]
    by_cases heq : fd' = fd
    · subst heq
      rw [if_pos rfl, List.getElem?_set_self hlt]
      rfl
    · rw [if_neg heq, List.getElem?_set_ne (Ne.symm heq)]
  · rw [if_neg hlt]
    have hlength : (fds.slots ++ List.replicate (fd - fds.slots.length) none).length = fd := by
      rw [List.length_append, List.length_replicate]
      omega
    by_cases heq : fd' = fd
    · rw [if_pos heq, List.getElem?_append_right (by omega), hlength, heq, Nat.sub_self]
      rfl
    · rw [if_neg heq]
      rcases lt_or_ge fd' fds.slots.length with hin | hout
      · rw [List.append_assoc, List.getElem?_append_left hin]
      · rw [List.getElem?_eq_none hout]
        rcases lt_or_gt_of_ne heq with hbefore | hbehind
        · rw [List.getElem?_append_left (by omega), List.getElem?_append_right hout,
            List.getElem?_replicate]
          split <;> rfl
        · rw [List.getElem?_eq_none]
          rw [List.length_append, hlength, List.length_singleton]
          omega

theorem lookup_map {β : Type*} (f : α → β) (fd : ℕ) :
    (fds.map f).lookup fd = (fds.lookup fd).map f := by
  rw [lookup, lookup, map, List.getElem?_map]
  cases fds.slots[fd]? <;> rfl

theorem lookup_of_length_le {fd : ℕ} (h : fds.slots.length ≤ fd) : fds.lookup fd = none := by
  rw [lookup, List.getElem?_eq_none h]
  rfl

/-- The descriptor that `open` uses is free. -/
theorem lookup_lowestFree : fds.lookup fds.lowestFree = none := by
  rw [lookup, lowestFree]
  cases hslot : fds.slots[fds.slots.findIdx Option.isNone]? with
  | none => rfl
  | some slot =>
    obtain ⟨hlt, hget⟩ := List.getElem?_eq_some_iff.mp hslot
    have hnone := List.findIdx_getElem (w := hlt)
    rw [hget, Option.isNone_iff_eq_none] at hnone
    rw [hnone]
    rfl

theorem ne_lowestFree {fd : ℕ} {file : α} (h : fds.lookup fd = some file) :
    fd ≠ fds.lowestFree := by
  intro heq
  rw [heq, lookup_lowestFree] at h
  cases h

theorem lookup_openFile (file : α) (fd : ℕ) :
    (fds.openFile file).2.lookup fd =
      if fd = fds.lowestFree then some file else fds.lookup fd :=
  lookup_assign fds fds.lowestFree (some file) fd

theorem lookup_dup2_of_open {oldfd : ℕ} {file : α} (h : fds.lookup oldfd = some file)
    (newfd fd : ℕ) :
    (fds.dup2 oldfd newfd).lookup fd = if fd = newfd then some file else fds.lookup fd := by
  rw [dup2, h]
  exact lookup_assign fds newfd (some file) fd

theorem lookup_close (fd fd' : ℕ) :
    (fds.close fd).lookup fd' = if fd' = fd then none else fds.lookup fd' :=
  lookup_assign fds fd none fd'

/-- A file opened, put under another descriptor that is open, and closed under the first one. -/
def replace (fds : FdTable α) (newfd : ℕ) (file : α) : FdTable α :=
  let (fd, fds) := fds.openFile file
  (fds.dup2 fd newfd).close fd

/-- Only the other descriptor has changed. -/
theorem lookup_replace {newfd : ℕ} (h : fds.lookup newfd ≠ none) (file : α) (fd : ℕ) :
    (fds.replace newfd file).lookup fd = if fd = newfd then some file else fds.lookup fd := by
  obtain ⟨old, hold⟩ := Option.ne_none_iff_exists'.mp h
  have hne := fds.ne_lowestFree hold
  have hopen : (fds.openFile file).2.lookup fds.lowestFree = some file := by
    rw [lookup_openFile, if_pos rfl]
  show (((fds.openFile file).2.dup2 fds.lowestFree newfd).close fds.lowestFree).lookup fd = _
  rw [lookup_close, lookup_dup2_of_open _ hopen, lookup_openFile]
  by_cases hfree : fd = fds.lowestFree
  · rw [if_pos hfree, if_neg (hfree ▸ hne.symm), hfree, lookup_lowestFree]
  · rw [if_neg hfree, if_neg hfree]

/-- What is open under some descriptor. -/
theorem mem_reduceOption_slots {file : α} :
    file ∈ fds.slots.reduceOption ↔ ∃ fd, fds.lookup fd = some file := by
  rw [List.reduceOption_mem_iff, List.mem_iff_getElem?]
  exact exists_congr fun fd => Option.join_eq_some_iff.symm

end FdTable

end OsLabs.Lib
