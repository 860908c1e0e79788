import OsLabs.Lib.Transition
import OsLabs.Mmu.Tiling

/-!
# Records with sizes that are not positive

`parse_file` passes on every `int`, and no function between it and the split in
`allocate_memory` looks at the sign of a size.  A size of 0 or less fits every nonempty block,
and the block carved out of it ends before it starts.  Only an empty free list turns such a
record away, so the runs whose blocks stay well placed are those in which every such record
finds one.
-/

namespace OsLabs.Mmu

open OsLabs.Lib

/-- The loop of `main` as a machine that reads one input record at a step. -/
def mainMachine (policy : Policy) (P : ℤ) : Machine Memory (ℤ × ℤ) :=
  Machine.ofNext (initialMemory P) fun m record => some (serve policy m (requestOf record))

theorem mainMachine_step {policy : Policy} {P : ℤ} {m m' : Memory} {record : ℤ × ℤ} :
    (mainMachine policy P).step m record m' ↔ serve policy m (requestOf record) = m' :=
  Option.some_inj

/-- A run of the machine ends in the memory that the loop computes from its records. -/
theorem mainLoop_of_run {policy : Policy} {P : ℤ} {tr : List (Memory × (ℤ × ℤ))} {m : Memory}
    (h : (mainMachine policy P).Run tr m) : m = mainLoop policy P (tr.map Prod.snd) := by
  induction h with
  | start => rfl
  | snoc hrun hs ih =>
    rw [← mainMachine_step.mp hs, ih, mainLoop, mainLoop, List.map_append, List.map_append]
    exact (serveAll_concat policy P _ _).symm

/-- Every block lies in the partition with its start not behind its end, and no two overlap. -/
structure WellPlaced (P : ℤ) (m : Memory) : Prop where
  within : ∀ b ∈ m.freeList ++ m.allocList, 0 ≤ b.start ∧ b.start ≤ b.end_ ∧ b.end_ ≤ P - 1
  disjoint : (m.freeList ++ m.allocList).Pairwise Block.Disjoint

theorem Tiled.wellPlaced {P : ℤ} {m : Memory} (h : Tiled P m) : WellPlaced P m := by
  refine ⟨fun b hb => ?_, h.cover.disjoint⟩
  have hne := h.nonempty b hb
  have hstart := (h.cover.mem_region b.start).mpr ⟨b, hb, le_rfl, hne⟩
  have hend := (h.cover.mem_region b.end_).mpr ⟨b, hb, hne, le_rfl⟩
  exact ⟨hstart.1, hne, hend.2⟩

/-- A record that allocates a size of 0 or less finds no free block. -/
def TurnedAway (m : Memory) (record : ℤ × ℤ) : Prop :=
  0 < record.1 → record.2 ≤ 0 → m.freeList = []

theorem requestOf_allocate {record : ℤ × ℤ} (h : 0 < record.1) :
    requestOf record = .allocate record.1 record.2 := by
  have hmark : record.1 ≠ -99999 := by omega
  exact if_pos ⟨hmark, h⟩

theorem allocateMemory_nil (alloclist : List Block) (pid size : ℤ) (policy : Policy) :
    allocateMemory [] alloclist pid size policy = .error .notEnoughMemory := rfl

/-- One record that is turned away, or that asks for a positive size, keeps the tiling. -/
theorem Tiled.record {P : ℤ} {m : Memory} (h : Tiled P m) (policy : Policy) {record : ℤ × ℤ}
    (hrec : TurnedAway m record) : Tiled P (OsLabs.Mmu.serve policy m (requestOf record)) := by
  by_cases hodd : 0 < record.1 ∧ record.2 ≤ 0
  · have hempty : m.freeList = [] := hrec hodd.1 hodd.2
    rw [requestOf_allocate hodd.1, OsLabs.Mmu.serve, hempty, allocateMemory_nil]
    exact h
  · exact h.serve (requestOf_positive fun hpid => by omega)

/-- Wherever there is a free block, a record with a size of 0 or less makes a block that ends
before it starts. -/
theorem not_wellPlaced_of_odd {P : ℤ} {m : Memory} (h : Tiled P m) (policy : Policy)
    {record : ℤ × ℤ} (hpid : 0 < record.1) (hodd : record.2 ≤ 0) (hfree : m.freeList ≠ []) :
    ¬ WellPlaced P (serve policy m (requestOf record)) := by
  intro hplaced
  obtain ⟨b, rest, hlist⟩ := List.exists_cons_of_ne_nil hfree
  have hb : b.start ≤ b.end_ := h.free_nonempty b (by simp [hlist])
  have hfit : record.2 ≤ b.size := by
    unfold Block.size
    omega
  have hok : allocateMemory m.freeList m.allocList record.1 record.2 policy =
      .ok (refile policy rest b record.2,
        listAddAscendingByAddress m.allocList (b.carve record.1 record.2)) :=
    allocateMemory_eq_ok_iff.mpr ⟨[], b, rest, hlist, by simp, hfit, rfl, rfl⟩
  rw [requestOf_allocate hpid, serve, hok] at hplaced
  have hnew : b.carve record.1 record.2 ∈
      listAddAscendingByAddress m.allocList (b.carve record.1 record.2) :=
    (listAddAscendingByAddress_perm _ _).mem_iff.mpr (by simp)
  have hends : b.start ≤ b.start + record.2 - 1 :=
    (hplaced.within _ (List.mem_append_right _ hnew)).2.1
  omega

/-- **When odd sizes do no damage.**  In a run of the main loop over any records, the blocks of
both lists are well placed in every state if and only if each record that allocates a size of
0 or less comes in a state whose free list is empty. -/
theorem wellPlaced_iff_turnedAway (policy : Policy) (P : ℤ) (hP : 1 ≤ P)
    (tr : List (Memory × (ℤ × ℤ))) (m : Memory) (h : (mainMachine policy P).Run tr m) :
    (∀ x ∈ Machine.visited tr m, WellPlaced P x) ↔ ∀ x ∈ tr, TurnedAway x.1 x.2 := by
  refine Machine.Run.forall_visited_iff (I := Tiled P) (tiled_initialMemory hP)
    (fun _ => Tiled.wellPlaced) ?_ ?_ h
  · intro s record s' hs hrec hstep
    rw [← mainMachine_step.mp hstep]
    exact hs.record policy hrec
  · intro s record s' hs hnot hstep
    rw [← mainMachine_step.mp hstep]
    obtain ⟨hpid, hodd, hfree⟩ : 0 < record.1 ∧ record.2 ≤ 0 ∧ s.freeList ≠ [] := by
      simpa [TurnedAway] using hnot
    exact not_wellPlaced_of_odd hs policy hpid hodd hfree

/-- The first record takes the whole partition, the second is turned away. -/
theorem wellPlaced_iff_turnedAway_sample :
    ∃ tr, (mainMachine .fifo 10).Run tr ⟨[], [⟨1, 0, 9⟩]⟩ ∧
      tr.map Prod.snd = [(1, 10), (2, -5)] ∧
      ∀ x ∈ Machine.visited tr ⟨[], [⟨1, 0, 9⟩]⟩, WellPlaced 10 x := by
  have hfirst : (mainMachine .fifo 10).Run [(initialMemory 10, (1, 10))]
      ⟨[], [⟨1, 0, 9⟩]⟩ :=
    Machine.Run.start.snoc (mainMachine_step.mpr (by decide))
  have hrun : (mainMachine .fifo 10).Run
      [(initialMemory 10, (1, 10)), (⟨[], [⟨1, 0, 9⟩]⟩, (2, -5))] ⟨[], [⟨1, 0, 9⟩]⟩ :=
    hfirst.snoc (mainMachine_step.mpr (by decide))
  refine ⟨_, hrun, rfl, (wellPlaced_iff_turnedAway .fifo 10 (by decide) _ _ hrun).mpr ?_⟩
  intro x hx
  rcases List.mem_pair.mp hx with rfl | rfl
  · exact fun _ hodd => absurd hodd (by decide)
  · exact fun _ _ => rfl

/-- The record `(1, -5)` makes the block from 0 to -6 and a free block that starts at -5. -/
theorem oddRecord_not_wellPlaced : ¬ WellPlaced 10 (mainLoop .fifo 10 [(1, -5)]) := by
  intro h
  exact absurd (h.within ⟨1, 0, -6⟩ (by decide)) (by decide)

end OsLabs.Mmu
