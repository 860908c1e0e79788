import OsLabs.Lib.Heap
import OsLabs.Lib.WhileLoop

/-!
# Singly linked chains

A chain is a sequence of nodes on a heap, each with a pointer to the next.  `Linked h p cells q`
says that following `next` from `p` visits the cells and then arrives at `q`.  A chain that owns
its heap ends in `NULL`, visits no node twice and leaves no node of the heap out, so relinking it
neither loses nor leaks a node.
-/

namespace OsLabs.Lib

structure Node (α : Type*) where
  value : α
  next : Ptr
  deriving DecidableEq

variable {α σ : Type*} {h h' : Heap (Node α)} {p q r : Ptr} {a b : ℕ} {x y : α}
  {cells cs ds : List (ℕ × α)}

/-! ### Fields of nodes -/

/-- `p->value`. -/
def value (h : Heap (Node α)) (p : Ptr) : Option α := (h.load p).map Node.value

/-- `p->next`. -/
def next (h : Heap (Node α)) (p : Ptr) : Option Ptr := (h.load p).map Node.next

/-- `p->next = q`. -/
def setNext (h : Heap (Node α)) (p q : Ptr) : Option (Heap (Node α)) :=
  (h.load p).bind fun node => h.store p { node with next := q }

@[simp] theorem value_some (ha : h.lookup a = some ⟨x, r⟩) : value h (some a) = some x := by
  rw [value, Heap.load_some, ha, Option.map_some]

@[simp] theorem next_some (ha : h.lookup a = some ⟨x, r⟩) : next h (some a) = some r := by
  rw [next, Heap.load_some, ha, Option.map_some]

@[simp] theorem setNext_some (ha : h.lookup a = some ⟨x, r⟩) (q : Ptr) :
    setNext h (some a) q = some (h.insert a ⟨x, q⟩) := by
  rw [setNext, Heap.load_some, ha, Option.bind_some, Heap.store_some ha]

/-! ### Links -/

def Linked (h : Heap (Node α)) : Ptr → List (ℕ × α) → Ptr → Prop
  | p, [], q => p = q
  | p, (a, x) :: cells, q => p = some a ∧ ∃ r, h.lookup a = some ⟨x, r⟩ ∧ Linked h r cells q

theorem linked_cons :
    Linked h p ((a, x) :: cells) q ↔
      p = some a ∧ ∃ r, h.lookup a = some ⟨x, r⟩ ∧ Linked h r cells q := Iff.rfl

theorem linked_append :
    Linked h p (cs ++ ds) q ↔ ∃ r, Linked h p cs r ∧ Linked h r ds q := by
  induction cs generalizing p with
  | nil => simp [Linked]
  | cons c cs ih =>
    rw [List.cons_append, linked_cons]
    constructor
    · rintro ⟨rfl, s, hc, hrest⟩
      obtain ⟨r, hcs, hds⟩ := ih.mp hrest
      exact ⟨r, ⟨rfl, s, hc, hcs⟩, hds⟩
    · rintro ⟨r, ⟨rfl, s, hc, hcs⟩, hds⟩
      exact ⟨rfl, s, hc, ih.mpr ⟨r, hcs, hds⟩⟩

/-- The links up to a cell, the cell, and the links behind it. -/
theorem linked_append_cons :
    Linked h p (cs ++ (a, x) :: ds) q ↔
      Linked h p cs (some a) ∧ ∃ r, h.lookup a = some ⟨x, r⟩ ∧ Linked h r ds q := by
  rw [linked_append]
  constructor
  · rintro ⟨r, hcs, rfl, hcell⟩
    exact ⟨hcs, hcell⟩
  · rintro ⟨hcs, hcell⟩
    exact ⟨some a, hcs, rfl, hcell⟩

/-- The cells stand at addresses in use. -/
theorem Linked.mem_heap (hl : Linked h p cells q) {c : ℕ × α} (hc : c ∈ cells) : c.1 ∈ h := by
  obtain ⟨cs, ds, rfl⟩ := List.append_of_mem hc
  obtain ⟨-, r, hlook, -⟩ := linked_append_cons.mp hl
  exact Finmap.mem_of_lookup_eq_some hlook

/-- Links depend only on the nodes they visit. -/
theorem Linked.congr (hl : Linked h p cells q)
    (heq : ∀ c ∈ cells, h'.lookup c.1 = h.lookup c.1) : Linked h' p cells q := by
  induction cells generalizing p with
  | nil => exact hl
  | cons c cells ih =>
    obtain ⟨rfl, r, hc, hrest⟩ := hl
    refine ⟨rfl, r, ?_, ih hrest fun d hd => heq d (List.mem_cons_of_mem c hd)⟩
    rw [heq c List.mem_cons_self]
    exact hc

/-- A new node does not disturb them. -/
theorem Linked.insert (hl : Linked h p cells q) (hb : b ∉ h) (node : Node α) :
    Linked (h.insert b node) p cells q :=
  hl.congr fun _ hc => Finmap.lookup_insert_of_ne h fun heq => hb (heq ▸ hl.mem_heap hc)

/-- Links that arrive at a node start at one. -/
theorem Linked.isSome (hl : Linked h p cells (some a)) : p.isSome = true := by
  cases cells with
  | nil => rw [hl]; rfl
  | cons c cells => rw [hl.1]; rfl

/-- Before a node at least one link away, `next` is not `NULL`. -/
theorem Linked.next_eq_some (hl : Linked h p cells (some b)) (hne : cells ≠ []) :
    ∃ a, next h p = some (some a) := by
  cases cells with
  | nil => exact absurd rfl hne
  | cons c cells =>
    obtain ⟨rfl, r, hc, hrest⟩ := hl
    obtain ⟨a, rfl⟩ := Option.isSome_iff_exists.mp hrest.isSome
    exact ⟨a, next_some hc⟩

theorem Linked.eq_nil (hl : Linked h none cells q) : cells = [] := by
  cases cells with
  | nil => rfl
  | cons c cells => cases hl.1

/-- The links up to `NULL` are the ones that are on the heap. -/
theorem Linked.unique (hl : Linked h p cs none) (hl' : Linked h p ds none) : cs = ds := by
  induction cs generalizing p ds with
  | nil =>
    obtain rfl : p = none := hl
    exact hl'.eq_nil.symm
  | cons c cs ih =>
    obtain ⟨rfl, r, hc, hrest⟩ := hl
    cases ds with
    | nil => cases hl'
    | cons d ds =>
      obtain ⟨heq, r', hd, hrest'⟩ := hl'
      have haddr : c.1 = d.1 := Option.some.inj heq
      rw [← haddr, hc, Option.some.injEq, Node.mk.injEq] at hd
      obtain ⟨hvalue, rfl⟩ := hd
      rw [ih hrest hrest', Prod.ext haddr hvalue]

/-- **Walks.**  A loop that moves on to the next node and counts arrives at the end of the links
its guard lets it pass.  `state p k` is the state of the loop at `p` after `k` steps. -/
theorem Linked.whileLoopM_eq {guard : σ → Option Bool} {body : σ → Option σ}
    (state : Ptr → ℕ → σ) (hl : Linked h p cells q)
    (hbody : ∀ a x r k, h.lookup a = some ⟨x, r⟩ →
      body (state (some a) k) = some (state r (k + 1)))
    (hpass : ∀ cs a x ds r, cells = cs ++ (a, x) :: ds → h.lookup a = some ⟨x, r⟩ →
      Linked h r ds q → guard (state (some a) cs.length) = some true)
    (hstop : guard (state q cells.length) = some false) {fuel : ℕ}
    (hfuel : cells.length ≤ fuel) :
    whileLoopM guard body fuel (state p 0) = some (state q cells.length) := by
  induction cells generalizing p fuel state with
  | nil =>
    obtain rfl : p = q := hl
    exact whileLoopM_of_false hstop fuel
  | cons c cells ih =>
    obtain ⟨rfl, r, hc, hrest⟩ := hl
    obtain ⟨fuel, rfl⟩ : ∃ m, fuel = m + 1 := ⟨fuel - 1, by simp at hfuel; omega⟩
    have hguard := hpass [] c.1 c.2 cells r rfl hc hrest
    rw [List.length_nil] at hguard
    rw [whileLoopM_of_true hguard (hbody _ _ _ _ hc)]
    refine ih (fun p k => state p (k + 1)) hrest
      (fun a x r k ha => hbody a x r (k + 1) ha) (fun cs a x ds r hsplit ha hds => ?_) hstop
      (by simpa using hfuel)
    exact hpass (c :: cs) a x ds r (by rw [hsplit, List.cons_append]) ha hds

/-- **Folds.**  A loop that moves on to the next node and puts the values together, up to the end
of the chain. -/
theorem Linked.whileLoopM_foldlM {τ : Type*} {guard : Ptr × τ → Option Bool}
    {body : Ptr × τ → Option (Ptr × τ)} (f : τ → α → Option τ) (hl : Linked h p cells none)
    (hguard : ∀ p t, guard (p, t) = some p.isSome)
    (hbody : ∀ a x r t, h.lookup a = some ⟨x, r⟩ →
      body (some a, t) = (f t x).map fun t => (r, t))
    {fuel : ℕ} (hfuel : cells.length ≤ fuel) (t : τ) :
    whileLoopM guard body fuel (p, t) =
      ((cells.map Prod.snd).foldlM f t).map fun t => (none, t) := by
  induction cells generalizing p fuel t with
  | nil =>
    obtain rfl : p = none := hl
    exact whileLoopM_of_false (hguard none t) fuel
  | cons c cells ih =>
    obtain ⟨rfl, r, hc, hrest⟩ := hl
    obtain ⟨fuel, rfl⟩ : ∃ m, fuel = m + 1 := ⟨fuel - 1, by simp at hfuel; omega⟩
    rw [whileLoopM, hguard, Option.bind_some, if_pos (Option.isSome_some), hbody _ _ _ _ hc,
      List.map_cons, List.foldlM_cons]
    cases hf : f t c.2 with
    | none => rfl
    | some t' => exact ih hrest (by simpa using hfuel) t'

/-! ### Chains that own their heap -/

/-- The chain from `p` visits each node of the heap exactly once. -/
structure Owns (h : Heap (Node α)) (p : Ptr) (cells : List (ℕ × α)) : Prop where
  linked : Linked h p cells none
  nodup : (cells.map Prod.fst).Nodup
  mem_of_mem : ∀ a ∈ h, a ∈ cells.map Prod.fst

namespace Owns

theorem nil : Owns (∅ : Heap (Node α)) none [] :=
  ⟨rfl, List.nodup_nil, fun _ ha => absurd ha Finmap.notMem_empty⟩

/-- The node at a cell, and the rest of the chain behind it. -/
theorem lookup (ho : Owns h p (cs ++ (a, x) :: ds)) :
    ∃ r, h.lookup a = some ⟨x, r⟩ ∧ Linked h r ds none :=
  (linked_append_cons.mp ho.linked).2

theorem eq_none_iff (ho : Owns h p cells) : p = none ↔ cells = [] := by
  constructor
  · rintro rfl
    exact ho.linked.eq_nil
  · rintro rfl
    exact ho.linked

/-- The other cells stand at other addresses. -/
theorem ne_of_mem (ho : Owns h p (cs ++ (a, x) :: ds)) {c : ℕ × α} (hc : c ∈ cs ++ ds) :
    c.1 ≠ a := by
  have hnodup := ho.nodup
  rw [List.map_append, List.map_cons, List.nodup_middle, List.nodup_cons,
    ← List.map_append] at hnodup
  have hin : c.1 ∈ (cs ++ ds).map Prod.fst := List.mem_map_of_mem hc
  exact fun heq => hnodup.1 (heq ▸ hin)

/-- A new node in front. -/
theorem push (ho : Owns h p cells) (ha : a ∉ h) (x : α) :
    Owns (h.insert a ⟨x, p⟩) (some a) ((a, x) :: cells) where
  linked := by
    refine ⟨rfl, p, Finmap.lookup_insert h, ho.linked.congr fun c hc => ?_⟩
    exact Finmap.lookup_insert_of_ne h fun heq => ha (heq ▸ ho.linked.mem_heap hc)
  nodup := by
    refine List.nodup_cons.mpr ⟨fun hmem => ?_, ho.nodup⟩
    obtain ⟨c, hc, rfl⟩ := List.mem_map.mp hmem
    exact ha (ho.linked.mem_heap hc)
  mem_of_mem b hb := by
    rcases Finmap.mem_insert.mp hb with rfl | hold
    · exact List.mem_cons_self
    · exact List.mem_cons_of_mem a (ho.mem_of_mem b hold)

/-- The first node unlinked and freed. -/
theorem pop (ho : Owns h (some a) ((a, x) :: ds)) (ha : h.lookup a = some ⟨x, r⟩) :
    Owns (h.erase a) r ds where
  linked := by
    obtain ⟨-, r', hlook, hds⟩ := ho.linked
    obtain rfl : r' = r := by simpa [hlook] using ha
    have hcells : Owns h (some a) ([] ++ (a, x) :: ds) := ho
    exact hds.congr fun c hc => Finmap.lookup_erase_ne (hcells.ne_of_mem hc)
  nodup := (List.nodup_cons.mp ho.nodup).2
  mem_of_mem b hb := by
    obtain ⟨hne, hold⟩ := Finmap.mem_erase.mp hb
    exact (List.mem_cons.mp (ho.mem_of_mem b hold)).resolve_left hne

/-- A new node behind a node of the chain. -/
theorem insertAfter (ho : Owns h p (cs ++ (a, x) :: ds)) (ha : h.lookup a = some ⟨x, r⟩)
    (hb : b ∉ h) (y : α) :
    Owns ((h.insert b ⟨y, r⟩).insert a ⟨x, some b⟩) p (cs ++ (a, x) :: (b, y) :: ds) := by
  obtain ⟨hcs, r', hlook, hds⟩ := linked_append_cons.mp ho.linked
  obtain rfl : r' = r := by simpa [hlook] using ha
  have hne : b ≠ a := fun heq => hb (heq ▸ Finmap.mem_of_lookup_eq_some ha)
  have hkeep : ∀ c ∈ cs ++ ds,
      ((h.insert b ⟨y, r'⟩).insert a ⟨x, some b⟩).lookup c.1 = h.lookup c.1 := by
    intro c hc
    have hold : c ∈ cs ++ (a, x) :: ds := by
      rcases List.mem_append.mp hc with hc | hc
      · exact List.mem_append_left _ hc
      · exact List.mem_append_right _ (List.mem_cons_of_mem _ hc)
    rw [Finmap.lookup_insert_of_ne _ (ho.ne_of_mem hc), Finmap.lookup_insert_of_ne]
    exact fun heq => hb (heq ▸ ho.linked.mem_heap hold)
  constructor
  · refine linked_append_cons.mpr ⟨hcs.congr fun c hc => hkeep c (List.mem_append_left _ hc),
      some b, Finmap.lookup_insert _, rfl, r', ?_,
      hds.congr fun c hc => hkeep c (List.mem_append_right _ hc)⟩
    rw [Finmap.lookup_insert_of_ne _ hne, Finmap.lookup_insert]
  · have hmiddle : ((cs ++ [(a, x)]) ++ (b, y) :: ds).Perm ((b, y) :: ((cs ++ [(a, x)]) ++ ds)) :=
      List.perm_middle
    have hperm : ((cs ++ (a, x) :: (b, y) :: ds).map Prod.fst).Perm
        (b :: (cs ++ (a, x) :: ds).map Prod.fst) := by
      simpa using hmiddle.map Prod.fst
    refine hperm.nodup_iff.mpr (List.nodup_cons.mpr ⟨fun hmem => ?_, ho.nodup⟩)
    obtain ⟨c, hc, rfl⟩ := List.mem_map.mp hmem
    exact hb (ho.linked.mem_heap hc)
  · intro c hc
    have hcases : c = b ∨ c ∈ (cs ++ (a, x) :: ds).map Prod.fst := by
      rcases Finmap.mem_insert.mp hc with rfl | hc
      · exact Or.inr (by simp)
      · exact (Finmap.mem_insert.mp hc).imp_right (ho.mem_of_mem c)
    rcases hcases with rfl | hold
    · simp
    · simp only [List.map_append, List.map_cons, List.mem_append, List.mem_cons] at hold ⊢
      tauto

/-- The node behind a node of the chain unlinked and freed. -/
theorem removeAfter (ho : Owns h p (cs ++ (a, x) :: (b, y) :: ds))
    (hb : h.lookup b = some ⟨y, r⟩) :
    Owns ((h.insert a ⟨x, r⟩).erase b) p (cs ++ (a, x) :: ds) := by
  obtain ⟨hcs, q, -, -, r', hlook, hds⟩ := linked_append_cons.mp ho.linked
  obtain rfl : r' = r := by simpa [hlook] using hb
  have ho' : Owns h p ((cs ++ [(a, x)]) ++ (b, y) :: ds) := by simpa using ho
  have hneb : ∀ c ∈ cs ++ (a, x) :: ds, c.1 ≠ b := by
    intro c hc
    exact ho'.ne_of_mem (by simpa using hc)
  have hkeep : ∀ c ∈ cs ++ ds, ((h.insert a ⟨x, r'⟩).erase b).lookup c.1 = h.lookup c.1 := by
    intro c hc
    have hmem : c ∈ cs ++ (b, y) :: ds ∧ c ∈ cs ++ (a, x) :: ds := by
      rcases List.mem_append.mp hc with hc | hc <;> simp [hc]
    rw [Finmap.lookup_erase_ne (hneb c hmem.2),
      Finmap.lookup_insert_of_ne _ (ho.ne_of_mem hmem.1)]
  constructor
  · refine linked_append_cons.mpr ⟨hcs.congr fun c hc => hkeep c (List.mem_append_left _ hc),
      r', ?_, hds.congr fun c hc => hkeep c (List.mem_append_right _ hc)⟩
    rw [Finmap.lookup_erase_ne (hneb (a, x) (by simp)), Finmap.lookup_insert]
  · have hnodup := ho'.nodup
    rw [List.map_append, List.map_cons, List.nodup_middle, List.nodup_cons] at hnodup
    simpa using hnodup.2
  · intro c hc
    obtain ⟨hne, hc⟩ := Finmap.mem_erase.mp hc
    have hold : c ∈ (cs ++ (a, x) :: (b, y) :: ds).map Prod.fst := by
      rcases Finmap.mem_insert.mp hc with rfl | hc
      · simp
      · exact ho.mem_of_mem c hc
    simp only [List.map_append, List.map_cons, List.mem_append, List.mem_cons] at hold ⊢
    tauto

end Owns

end OsLabs.Lib
